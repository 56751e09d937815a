/-
What a recognizer does besides reading tokens: it calls parts, gives
reasons of its own and leaves notes. `Recognizer.Uses` is read off the
text of a recognizer and says that all its acts are of an allowed sort,
whatever tokens it meets.

`uses_body` lists the acts of every part. The calls among them are the
call graph of the grammar (`Part.callees`). What follows from the sort of
the acts alone is proved by `Uses.mono` from that list.
-/
import JackSyntax.Proofs.Parse.Readings

namespace JackSyntax

variable {α β : Type}

-- =============================================================== acts

/-- What a recognizer does besides reading tokens. -/
inductive Act
  | call (owner : String) (part : Part)
  | refuse (reason : Reason)
  | note (left : Note)

namespace Recognizer

/-- All acts in the text of the recognizer are allowed. -/
def Uses (allowed : Act → Prop) : Recognizer α → Prop
  | .done _ => True
  | .look next => ∀ kind, (next kind).Uses allowed
  | .accept _ next => ∀ token, (next token).Uses allowed
  | .refuse reason => allowed (.refuse reason)
  | .note left next => allowed (.note left) ∧ next.Uses allowed
  | .call owner part next =>
    allowed (.call owner part) ∧ ∀ value, (next value).Uses allowed

namespace Uses

variable {allowed other : Act → Prop} {owner : String}

theorem mono (himp : ∀ act, allowed act → other act)
    {recognizer : Recognizer α} (h : recognizer.Uses allowed) :
    recognizer.Uses other := by
  induction recognizer with
  | done value => trivial
  | look next ih => exact fun kind => ih kind (h kind)
  | accept kinds next ih => exact fun token => ih token (h token)
  | refuse reason => exact himp _ h
  | note left next ih => exact ⟨himp _ h.1, ih h.2⟩
  | call name part next ih =>
    exact ⟨himp _ h.1, fun value => ih value (h.2 value)⟩

theorem bind {first : Recognizer α} {next : α → Recognizer β}
    (hfirst : first.Uses allowed)
    (hnext : ∀ value, (next value).Uses allowed) :
    (first >>= next).Uses allowed := by
  induction first with
  | done value => exact hnext value
  | look choose ih => exact fun kind => ih kind (hfirst kind)
  | accept kinds rest ih => exact fun token => ih token (hfirst token)
  | refuse reason => exact hfirst
  | note left rest ih => exact ⟨hfirst.1, ih hfirst.2⟩
  | call name part rest ih =>
    exact ⟨hfirst.1, fun value => ih value (hfirst.2 value)⟩

theorem pure (value : α) :
    (Pure.pure value : Recognizer α).Uses allowed := trivial

theorem refuse {reason : Reason} (h : allowed (.refuse reason)) :
    (.refuse reason : Recognizer α).Uses allowed := h

theorem take (kinds : List Kind) :
    (Recognizer.take kinds).Uses allowed := fun _ => trivial

theorem pass (kind : Kind) : (Recognizer.pass kind).Uses allowed :=
  fun _ => trivial

theorem record {left : Note} (h : allowed (.note left)) :
    (Recognizer.record left).Uses allowed := ⟨h, trivial⟩

theorem look {next : Kind → Recognizer α}
    (h : ∀ kind, (next kind).Uses allowed) :
    (peek >>= next).Uses allowed := h

theorem ite {test : Prop} [Decidable test] {one other : Recognizer α}
    (hone : one.Uses allowed) (hother : other.Uses allowed) :
    (if test then one else other).Uses allowed := by
  split
  · exact hone
  · exact hother

theorem rule {named : Rule} (h : allowed (.call owner (.rule named))) :
    (Recognizer.rule owner named).Uses allowed := ⟨h, fun _ => trivial⟩

theorem many {item : Item} (h : allowed (.call owner (.many item))) :
    (Recognizer.many owner item).Uses allowed := ⟨h, fun _ => trivial⟩

end Uses

/-- What holds of nothing at all, and is kept by a token and by each act
that is allowed, holds of all that the recognizer can build. -/
theorem Builds.of_uses {account : Account} {allowed : Act → Prop}
    (holds : Forest → List Note → Prop) (hnil : holds .nil [])
    (hleaf : ∀ token rest notes, holds rest notes →
      holds (.leaf token rest) notes)
    (hnote : ∀ left forest notes, allowed (.note left) →
      holds forest notes → holds forest (left :: notes))
    (hcall : ∀ owner part front before value back after,
      allowed (.call owner part) → account owner part front before value →
      holds back after → holds (front ++ back) (before ++ after))
    {recognizer : Recognizer α} {forest : Forest} {notes : List Note}
    {result : α} (h : recognizer.Builds account forest notes result)
    (huses : recognizer.Uses allowed) : holds forest notes := by
  induction recognizer generalizing forest notes with
  | done value =>
    obtain ⟨rfl, rfl, -⟩ := h
    exact hnil
  | look next ih =>
    obtain ⟨kind, h⟩ := h
    exact ih kind h (huses kind)
  | accept kinds next ih =>
    obtain ⟨token, rest, rfl, -, h⟩ := h
    exact hleaf token rest notes (ih token h (huses token))
  | refuse reason => cases h
  | note left next ih =>
    obtain ⟨rest, rfl, h⟩ := h
    exact hnote left forest rest huses.1 (ih h huses.2)
  | call owner part next ih =>
    obtain ⟨front, back, before, after, value, rfl, rfl, hpart, h⟩ := h
    exact hcall owner part front before value back after huses.1 hpart
      (ih value h (huses.2 value))

end Recognizer

-- =================================================== the acts of a part

/-- The parts that an item calls. -/
def Item.callees : Item → List Part
  | .classVarDec => [.rule .classVarDec]
  | .subroutineDec => [.rule .subroutineDec]
  | .varDec => [.rule .varDec]
  | .statement =>
    [.rule .letStatement, .rule .ifStatement, .rule .whileStatement,
      .rule .doStatement, .rule .returnStatement]
  | .operand => [.rule .term]
  | .expression => [.rule .expression]
  | .parameter | .name => []

namespace Part

/-- The parts that the body of a part calls. -/
def callees : Part → List Part
  | .rule .classDec => [.many .classVarDec, .many .subroutineDec]
  | .rule .classVarDec | .rule .varDec => [.many .name]
  | .rule .subroutineDec => [.rule .parameterList, .rule .subroutineBody]
  | .rule .parameterList => [.many .parameter]
  | .rule .subroutineBody => [.many .varDec, .rule .statements]
  | .rule .statements => [.many .statement]
  | .rule .letStatement | .rule .returnStatement => [.rule .expression]
  | .rule .ifStatement | .rule .whileStatement =>
    [.rule .expression, .rule .statements]
  | .rule .doStatement => [.rule .expressionList]
  | .rule .expression => [.rule .term, .many .operand]
  | .rule .term =>
    [.rule .expression, .rule .expressionList, .rule .term]
  | .rule .expressionList => [.rule .expression, .many .expression]
  | .many item => .many item :: item.callees

/-- The reasons that the body of a part gives of its own. -/
def reasons : Part → List Reason
  | .rule .term => [.termExpected]
  | .many .statement => [.statementExpected]
  | _ => []

/-- The notes that the body of a part can leave. -/
def Leaves : Part → Note → Prop
  | .rule .classDec, .header _ _ => True
  | .rule .subroutineDec, .subroutine _ => True
  | .rule .doStatement, .call _ | .rule .term, .call _ => True
  | _, _ => False

/-- The acts of the body of a part. Only a class calls its parts for
another class than its own owner, namely for itself. -/
def Does (part : Part) (owner : String) : Act → Prop
  | .call name callee =>
    callee ∈ part.callees ∧ (part = .rule .classDec ∨ name = owner)
  | .refuse reason => reason ∈ part.reasons
  | .note left => part.Leaves left

theorem Does.call {part callee : Part} {owner : String}
    (h : callee ∈ part.callees) : part.Does owner (.call owner callee) :=
  ⟨h, .inr rfl⟩

/-- A list of expressions stands in the statement of a call or in a
term. -/
theorem eq_of_expressionList_mem_callees {part : Part}
    (h : .rule .expressionList ∈ part.callees) :
    part = .rule .doStatement ∨ part = .rule .term := by
  cases part with
  | rule named => cases named <;> revert h <;> decide
  | many repeated => cases repeated <;> revert h <;> decide

/-- A class is no part of anything. -/
theorem classDec_notMem_callees (part : Part) :
    .rule .classDec ∉ part.callees := by
  cases part with
  | rule named => cases named <;> decide
  | many repeated => cases repeated <;> decide

/-- Only these two leave notes of calls. -/
theorem call?_eq_none_of_leaves {part : Part} {left : Note}
    (hdo : part ≠ .rule .doStatement) (hterm : part ≠ .rule .term)
    (h : part.Leaves left) : left.call? = none := by
  cases left with
  | header name line => rfl
  | subroutine declared => rfl
  | call made =>
    cases part with
    | many repeated => cases h
    | rule named =>
      cases named with
      | doStatement => exact absurd rfl hdo
      | term => exact absurd rfl hterm
      | _ => cases h

end Part

-- ======================================================== along the text

namespace Recognizer

variable {allowed : Act → Prop} (owner : String)

theorem uses_type : type.Uses allowed := .take _

theorem uses_names (h : allowed (.call owner (.many .name))) :
    (names owner).Uses allowed :=
  .bind (.pass _) fun _ => .bind (.many h) fun _ => .pure _

/-- A rule between two tokens. -/
theorem uses_enclosed {opening closing : Kind} {named : Rule}
    (h : allowed (.call owner (.rule named))) :
    (do pass opening; let _ ← rule owner named; pass closing).Uses
      allowed :=
  .bind (.pass _) fun _ => .bind (.rule h) fun _ => .pass _

theorem uses_condition (h : allowed (.call owner (.rule .expression))) :
    (condition owner).Uses allowed := uses_enclosed owner h

theorem uses_block (h : allowed (.call owner (.rule .statements))) :
    (block owner).Uses allowed := uses_enclosed owner h

theorem uses_optionalIndex
    (h : allowed (.call owner (.rule .expression))) :
    (optionalIndex owner).Uses allowed :=
  .look fun _ => .ite (uses_enclosed owner h) (.pure _)

theorem uses_subroutineCall (first : Token)
    (hlist : allowed (.call owner (.rule .expressionList)))
    (hcall : ∀ call, allowed (.note (.call call))) :
    (subroutineCall owner first).Uses allowed := by
  have harguments : ∀ target bare, (do
      let arguments ← rule owner .expressionList
      pass .closeParen
      let call : Call := ⟨target, arguments, bare, first.position.line⟩
      record (.call call)
      return call : Recognizer Call).Uses allowed := fun _ _ =>
    .bind (.rule hlist) fun _ => .bind (.pass _) fun _ =>
      .bind (.record (hcall _)) fun _ => .pure _
  exact .bind (.take _) fun _ => .ite (harguments _ _) <|
    .bind (.take _) fun _ => .bind (.pass _) fun _ => harguments _ _

theorem uses_classDec :
    classDec.Uses ((Part.rule .classDec).Does owner) :=
  .bind (.pass _) fun _ => .bind (.take _) fun _ =>
    .bind (.record trivial) fun _ => .bind (.pass _) fun _ =>
    .bind (.many ⟨by decide, .inl rfl⟩) fun _ =>
    .bind (.many ⟨by decide, .inl rfl⟩) fun _ =>
    .bind (.pass _) fun _ => .pure _

theorem uses_classVarDec :
    (classVarDec owner).Uses ((Part.rule .classVarDec).Does owner) :=
  .bind (.take _) fun _ => .bind uses_type fun _ =>
    .bind (uses_names owner (.call (by decide))) fun _ => .pass _

theorem uses_subroutineDec :
    (subroutineDec owner).Uses ((Part.rule .subroutineDec).Does owner) :=
  .bind (.take _) fun _ => .bind (.take _) fun _ =>
    .bind (.take _) fun _ => .bind (.pass _) fun _ =>
    .bind (.rule (.call (by decide))) fun _ => .bind (.pass _) fun _ =>
    .bind (.rule (.call (by decide))) fun _ => .record trivial

theorem uses_parameterList :
    (parameterList owner).Uses ((Part.rule .parameterList).Does owner) :=
  .look fun _ => .ite (.pure _) <| .bind uses_type fun _ =>
    .bind (.pass _) fun _ => .bind (.many (.call (by decide))) fun _ =>
    .pure _

theorem uses_subroutineBody :
    (subroutineBody owner).Uses ((Part.rule .subroutineBody).Does owner) :=
  .bind (.pass _) fun _ => .bind (.many (.call (by decide))) fun _ =>
    .bind (.rule (.call (by decide))) fun _ => .bind (.pass _) fun _ =>
    .pure _

theorem uses_varDec :
    (varDec owner).Uses ((Part.rule .varDec).Does owner) :=
  .bind (.pass _) fun _ => .bind uses_type fun _ =>
    .bind (uses_names owner (.call (by decide))) fun _ =>
    .bind (.pass _) fun _ => .pure _

theorem uses_statement :
    (statement owner).Uses ((Part.many .statement).Does owner) := by
  refine .look fun kind => ?_
  split
  · exact .rule (.call (by decide))
  · exact .rule (.call (by decide))
  · exact .rule (.call (by decide))
  · exact .rule (.call (by decide))
  · exact .rule (.call (by decide))
  · exact .refuse (List.mem_singleton.2 rfl)

theorem uses_statements :
    (statements owner).Uses ((Part.rule .statements).Does owner) :=
  .bind (.many (.call (by decide))) fun _ => .pure _

theorem uses_letStatement :
    (letStatement owner).Uses ((Part.rule .letStatement).Does owner) :=
  .bind (.pass _) fun _ => .bind (.pass _) fun _ =>
    .bind (uses_optionalIndex owner (.call (by decide))) fun _ =>
    .bind (.pass _) fun _ => .bind (.rule (.call (by decide))) fun _ =>
    .pass _

theorem uses_ifStatement :
    (ifStatement owner).Uses ((Part.rule .ifStatement).Does owner) := by
  have hblock : (block owner).Uses ((Part.rule .ifStatement).Does owner) :=
    uses_block owner (.call (by decide))
  exact .bind (.pass _) fun _ =>
    .bind (uses_condition owner (.call (by decide))) fun _ =>
    .bind hblock fun _ => .look fun _ =>
    .ite (.bind (.pass _) fun _ => hblock) (.pure _)

theorem uses_whileStatement :
    (whileStatement owner).Uses ((Part.rule .whileStatement).Does owner) :=
  .bind (.pass _) fun _ =>
    .bind (uses_condition owner (.call (by decide))) fun _ =>
    uses_block owner (.call (by decide))

theorem uses_doStatement :
    (doStatement owner).Uses ((Part.rule .doStatement).Does owner) :=
  .bind (.pass _) fun _ => .bind (.take _) fun first =>
    .bind (uses_subroutineCall owner first (.call (by decide))
      fun _ => trivial) fun _ => .pass _

theorem uses_returnStatement :
    (returnStatement owner).Uses
      ((Part.rule .returnStatement).Does owner) :=
  .bind (.pass _) fun _ => .look fun _ =>
    .ite (.bind (.rule (.call (by decide))) fun _ => .pass _) (.pass _)

theorem uses_expression :
    (expression owner).Uses ((Part.rule .expression).Does owner) :=
  .bind (.rule (.call (by decide))) fun _ =>
    .bind (.many (.call (by decide))) fun _ => .pure _

theorem uses_namedTerm :
    (namedTerm owner).Uses ((Part.rule .term).Does owner) := by
  have hcall : ∀ first, (do let _ ← subroutineCall owner first).Uses
      ((Part.rule .term).Does owner) := fun first =>
    .bind (uses_subroutineCall owner first (.call (by decide))
      fun _ => trivial) fun _ => .pure _
  refine .bind (.take _) fun first => .look fun kind => ?_
  split
  · exact hcall first
  · exact hcall first
  · exact uses_optionalIndex owner (.call (by decide))

theorem uses_term :
    (term owner).Uses ((Part.rule .term).Does owner) := by
  have hunary : (do
      let _ ← take Kind.unaryOperators
      rule owner .term).Uses ((Part.rule .term).Does owner) :=
    .bind (.take _) fun _ => .rule (.call (by decide))
  refine .look fun kind => ?_
  split
  · exact .pass _
  · exact .pass _
  · exact .bind (.take _) fun _ => .pure _
  · exact .bind (.take _) fun _ => .pure _
  · exact .bind (.take _) fun _ => .pure _
  · exact .bind (.take _) fun _ => .pure _
  · exact uses_namedTerm owner
  · exact uses_condition owner (.call (by decide))
  · exact hunary
  · exact hunary
  · exact .refuse (List.mem_singleton.2 rfl)

theorem uses_expressionList :
    (expressionList owner).Uses
      ((Part.rule .expressionList).Does owner) :=
  .look fun _ => .ite (.pure _) <|
    .bind (.rule (.call (by decide))) fun _ =>
    .bind (.many (.call (by decide))) fun _ => .pure _

theorem uses_item (repeated : Item) :
    (item owner repeated).Uses ((Part.many repeated).Does owner) := by
  cases repeated with
  | classVarDec =>
    exact .bind (.rule (.call (by decide))) fun _ => .pure _
  | subroutineDec =>
    exact .bind (.rule (.call (by decide))) fun _ => .pure _
  | parameter =>
    exact .bind (.pass _) fun _ => .bind uses_type fun _ =>
      .bind (.pass _) fun _ => .pure _
  | varDec => exact .rule (.call (by decide))
  | name =>
    exact .bind (.pass _) fun _ => .bind (.pass _) fun _ => .pure _
  | statement => exact .bind (uses_statement owner) fun _ => .pure _
  | operand =>
    exact .bind (.take _) fun _ =>
      .bind (.rule (.call (by decide))) fun _ => .pure _
  | expression =>
    exact .bind (.pass _) fun _ =>
      .bind (.rule (.call (by decide))) fun _ => .pure _

theorem uses_repetition (repeated : Item) :
    (repetition owner repeated).Uses ((Part.many repeated).Does owner) :=
  .look fun _ => .ite (.bind (uses_item owner repeated) fun _ =>
    .bind (.many (.call (List.mem_cons_self ..))) fun _ => .pure _)
    (.pure _)

-- ========================================================== all bodies

/-- The body of a part does what is listed for the part. -/
theorem uses_body (part : Part) :
    (body owner part).Uses (part.Does owner) := by
  cases part with
  | many repeated => exact uses_repetition owner repeated
  | rule named =>
    cases named with
    | classDec => exact uses_classDec owner
    | classVarDec => exact uses_classVarDec owner
    | subroutineDec => exact uses_subroutineDec owner
    | parameterList => exact uses_parameterList owner
    | subroutineBody => exact uses_subroutineBody owner
    | varDec => exact uses_varDec owner
    | statements => exact uses_statements owner
    | letStatement => exact uses_letStatement owner
    | ifStatement => exact uses_ifStatement owner
    | whileStatement => exact uses_whileStatement owner
    | doStatement => exact uses_doStatement owner
    | returnStatement => exact uses_returnStatement owner
    | expression => exact uses_expression owner
    | term => exact uses_term owner
    | expressionList => exact uses_expressionList owner

end Recognizer

end JackSyntax
