/-
Recognizers that decide alike. Two recognizers are alike if they differ
only in what they have from the texts and the places of tokens: they look
and accept at the same points, accept the same kinds, call the same
parts, and refuse for the same reasons. The relation asks nothing of the
texts of tokens, so what is alike cannot have decided by them.

Two bodies of one part are alike, whatever the classes they are for
(`alike_body`). Each piece of a body has its own lemma, and `Alike.bind`
puts them together.
-/
import JackSyntax.Parse.Rules

namespace JackSyntax

variable {α β : Type}

-- ====================================================== what is compared

/-- Entries that differ at most in the text and the place of a token. -/
inductive Entry.Alike : Entry → Entry → Prop
  | enter (rule : Rule) : Alike (.enter rule) (.enter rule)
  | exit (rule : Rule) : Alike (.exit rule) (.exit rule)
  | terminal {token token' : Token} (h : token.kind = token'.kind) :
    Alike (.terminal token) (.terminal token')

/-- Subroutines of the same kind, with as many parameters and locals. -/
structure Subroutine.Alike (first second : Subroutine) : Prop where
  kind : first.kind = second.kind
  parameters : first.parameters = second.parameters
  locals : first.locals = second.locals

/-- Calls with as many arguments, both on the current object or neither. -/
structure Call.Alike (first second : Call) : Prop where
  arguments : first.arguments = second.arguments
  implicitThis : first.implicitThis = second.implicitThis

/-- Notes of the same sort whose records are alike. -/
inductive Note.Alike : Note → Note → Prop
  | header (name name' : String) (line line' : Nat) :
    Alike (.header name line) (.header name' line')
  | subroutine {declared declared' : Subroutine}
    (h : declared.Alike declared') :
    Alike (.subroutine declared) (.subroutine declared')
  | call {made made' : Call} (h : made.Alike made') :
    Alike (.call made) (.call made')

/-- Counts must be the same, the names of classes need not be. -/
def Part.Alike : (part : Part) → part.Value → part.Value → Prop
  | .rule .classDec, _, _ => True
  | _, value, value' => value = value'

namespace Recognizer

/-- Recognizers that decide alike, and whose values are then related. -/
inductive Alike (same : α → α → Prop) : Recognizer α → Recognizer α → Prop
  | done {value value' : α} (h : same value value') :
    Alike same (.done value) (.done value')
  | look {next next' : Kind → Recognizer α}
    (h : ∀ kind, Alike same (next kind) (next' kind)) :
    Alike same (.look next) (.look next')
  | accept {kinds : List Kind} {next next' : Token → Recognizer α}
    (h : ∀ token token', token.kind = token'.kind →
      Alike same (next token) (next' token')) :
    Alike same (.accept kinds next) (.accept kinds next')
  | refuse (reason : Reason) : Alike same (.refuse reason) (.refuse reason)
  | note {left left' : Note} {next next' : Recognizer α}
    (hnote : left.Alike left') (h : Alike same next next') :
    Alike same (.note left next) (.note left' next')
  | call {owner owner' : String} {part : Part}
    {next next' : part.Value → Recognizer α}
    (h : ∀ value value', part.Alike value value' →
      Alike same (next value) (next' value')) :
    Alike same (.call owner part next) (.call owner' part next')

namespace Alike

variable {same : α → α → Prop} {same' : β → β → Prop}

-- ============================================================== pieces

/-- One recognizer and then another decide alike if both do, the second
for every two values that the first may yield. -/
theorem bind {first other : Recognizer α} {next next' : α → Recognizer β}
    (h : first.Alike same other)
    (hnext : ∀ value value', same value value' →
      (next value).Alike same' (next' value')) :
    (first >>= next).Alike same' (other >>= next') := by
  induction h with
  | done h => exact hnext _ _ h
  | look _ ih => exact .look ih
  | accept _ ih => exact .accept ih
  | refuse reason => exact .refuse reason
  | note hnote _ ih => exact .note hnote ih
  | call _ ih => exact .call ih

theorem pure (value : α) :
    (Pure.pure value : Recognizer α).Alike Eq (Pure.pure value) := .done rfl

/-- What looks ahead decides alike if it does for every kind. -/
theorem peek {next next' : Kind → Recognizer α}
    (h : ∀ kind, (next kind).Alike same (next' kind)) :
    (Recognizer.peek >>= next).Alike same (Recognizer.peek >>= next') :=
  .look h

theorem take (kinds : List Kind) :
    (Recognizer.take kinds).Alike (fun token token' =>
      token.kind = token'.kind) (Recognizer.take kinds) :=
  .accept fun _ _ h => .done h

theorem pass (kind : Kind) :
    (Recognizer.pass kind).Alike Eq (Recognizer.pass kind) :=
  .accept fun _ _ _ => .done rfl

theorem record {left left' : Note} (h : left.Alike left') :
    (Recognizer.record left).Alike Eq (Recognizer.record left') :=
  .note h (.done rfl)

theorem rule (owner owner' : String) (named : Rule) :
    (Recognizer.rule owner named).Alike (Part.rule named).Alike
      (Recognizer.rule owner' named) := .call fun _ _ h => .done h

theorem many (owner owner' : String) (item : Item) :
    (Recognizer.many owner item).Alike Eq (Recognizer.many owner' item) :=
  .call fun _ _ h => .done h

/-- One of two, as the same test decides. -/
theorem ite {test : Prop} [Decidable test]
    {one other one' other' : Recognizer α} (hone : one.Alike same one')
    (hother : other.Alike same other') :
    (if test then one else other).Alike same
      (if test then one' else other') := by
  split
  · exact hone
  · exact hother

end Alike

-- =================================================== along the grammar

variable (owner owner' : String)

theorem alike_names : (names owner).Alike Eq (names owner') := by
  refine .bind (.pass _) fun _ _ _ => .bind (.many _ _ _) ?_
  rintro more _ rfl
  exact .pure _

/-- A rule between two tokens. -/
theorem alike_enclosed {opening closing : Kind} {named : Rule} :
    (do pass opening; let _ ← rule owner named; pass closing).Alike Eq
      (do pass opening; let _ ← rule owner' named; pass closing) :=
  .bind (.pass _) fun _ _ _ => .bind (.rule _ _ _) fun _ _ _ => .pass _

theorem alike_condition : (condition owner).Alike Eq (condition owner') :=
  alike_enclosed owner owner'

theorem alike_block : (block owner).Alike Eq (block owner') :=
  alike_enclosed owner owner'

theorem alike_optionalIndex :
    (optionalIndex owner).Alike Eq (optionalIndex owner') :=
  .peek fun _ => .ite (alike_enclosed owner owner') (.pure _)

theorem alike_classDec : classDec.Alike (fun _ _ => True) classDec :=
  .bind (.pass _) fun _ _ _ => .bind (.take _) fun _ _ _ =>
    .bind (.record (.header _ _ _ _)) fun _ _ _ =>
    .bind (.pass _) fun _ _ _ => .bind (.many _ _ _) fun _ _ _ =>
    .bind (.many _ _ _) fun _ _ _ => .bind (.pass _) fun _ _ _ =>
    .done trivial

theorem alike_classVarDec :
    (classVarDec owner).Alike Eq (classVarDec owner') :=
  .bind (.take _) fun _ _ _ => .bind (.take _) fun _ _ _ =>
    .bind (alike_names owner owner') fun _ _ _ => .pass _

/-- A declaration is recorded with the same kind, which its keyword has,
and the same counts. -/
theorem alike_subroutineDec :
    (subroutineDec owner).Alike Eq (subroutineDec owner') := by
  refine .bind (.take _) fun keyword keyword' hkeyword => ?_
  refine .bind (.take _) fun _ _ _ => .bind (.take _) fun _ _ _ => ?_
  refine .bind (.pass _) fun _ _ _ => .bind (.rule _ _ .parameterList) ?_
  rintro parameters _ rfl
  refine .bind (.pass _) fun _ _ _ => .bind (.rule _ _ .subroutineBody) ?_
  rintro locals _ rfl
  exact .record (.subroutine ⟨by rw [hkeyword], rfl, rfl⟩)

theorem alike_parameterList :
    (parameterList owner).Alike Eq (parameterList owner') := by
  refine .peek fun _ => .ite (.pure _) ?_
  refine .bind (.take _) fun _ _ _ => .bind (.pass _) fun _ _ _ =>
    .bind (.many _ _ _) ?_
  rintro more _ rfl
  exact .pure _

theorem alike_subroutineBody :
    (subroutineBody owner).Alike Eq (subroutineBody owner') := by
  refine .bind (.pass _) fun _ _ _ => .bind (.many _ _ _) ?_
  rintro locals _ rfl
  exact .bind (.rule _ _ .statements) fun _ _ _ => .bind (.pass _) fun _ _ _ =>
    .pure _

theorem alike_varDec : (varDec owner).Alike Eq (varDec owner') := by
  refine .bind (.pass _) fun _ _ _ => .bind (.take _) fun _ _ _ =>
    .bind (alike_names owner owner') ?_
  rintro count _ rfl
  exact .bind (.pass _) fun _ _ _ => .pure _

theorem alike_statement : (statement owner).Alike Eq (statement owner') := by
  refine .peek fun kind => ?_
  cases kind with
  | kwLet => exact .rule _ _ .letStatement
  | kwIf => exact .rule _ _ .ifStatement
  | kwWhile => exact .rule _ _ .whileStatement
  | kwDo => exact .rule _ _ .doStatement
  | kwReturn => exact .rule _ _ .returnStatement
  | _ => exact .refuse _

theorem alike_statements :
    (statements owner).Alike Eq (statements owner') :=
  .bind (.many _ _ _) fun _ _ _ => .pure _

theorem alike_letStatement :
    (letStatement owner).Alike Eq (letStatement owner') :=
  .bind (.pass _) fun _ _ _ => .bind (.pass _) fun _ _ _ =>
    .bind (alike_optionalIndex owner owner') fun _ _ _ =>
    .bind (.pass _) fun _ _ _ =>
    .bind (.rule _ _ .expression) fun _ _ _ => .pass _

theorem alike_ifStatement :
    (ifStatement owner).Alike Eq (ifStatement owner') :=
  .bind (.pass _) fun _ _ _ =>
    .bind (alike_condition owner owner') fun _ _ _ =>
    .bind (alike_block owner owner') fun _ _ _ =>
    .peek fun _ => .ite
      (.bind (.pass _) fun _ _ _ => alike_block owner owner') (.pure _)

theorem alike_whileStatement :
    (whileStatement owner).Alike Eq (whileStatement owner') :=
  .bind (.pass _) fun _ _ _ =>
    .bind (alike_condition owner owner') fun _ _ _ =>
    alike_block owner owner'

theorem alike_returnStatement :
    (returnStatement owner).Alike Eq (returnStatement owner') :=
  .bind (.pass _) fun _ _ _ => .peek fun _ =>
    .ite (.bind (.rule _ _ .expression) fun _ _ _ => .pass _) (.pass _)

/-- A call is bare or not by the kind of one token. -/
theorem alike_subroutineCall (first first' : Token) :
    (subroutineCall owner first).Alike Call.Alike
      (subroutineCall owner' first') := by
  have harguments : ∀ target target' bare, (do
      let arguments ← rule owner .expressionList
      pass .closeParen
      let call : Call := ⟨target, arguments, bare, first.position.line⟩
      record (.call call)
      return call : Recognizer Call).Alike Call.Alike (do
        let arguments ← rule owner' .expressionList
        pass .closeParen
        let call : Call := ⟨target', arguments, bare, first'.position.line⟩
        record (.call call)
        return call) := by
    intro target target' bare
    refine .bind (.rule _ _ .expressionList) ?_
    rintro arguments _ rfl
    exact .bind (.pass _) fun _ _ _ =>
      .bind (.record (.call ⟨rfl, rfl⟩)) fun _ _ _ => .done ⟨rfl, rfl⟩
  refine .bind (.take _) fun separator separator' hkind => ?_
  simp only [hkind]
  exact .ite (harguments _ _ _) <| .bind (.take _) fun _ _ _ =>
    .bind (.pass _) fun _ _ _ => harguments _ _ _

theorem alike_doStatement :
    (doStatement owner).Alike Eq (doStatement owner') :=
  .bind (.pass _) fun _ _ _ => .bind (.take _) fun first first' _ =>
    .bind (alike_subroutineCall owner owner' first first') fun _ _ _ =>
    .pass _

theorem alike_expressionList :
    (expressionList owner).Alike Eq (expressionList owner') := by
  refine .peek fun _ => .ite (.pure _) ?_
  refine .bind (.rule _ _ .expression) fun _ _ _ => .bind (.many _ _ _) ?_
  rintro more _ rfl
  exact .pure _

theorem alike_namedTerm : (namedTerm owner).Alike Eq (namedTerm owner') := by
  refine .bind (.take _) fun first first' _ => .peek fun kind => ?_
  cases kind with
  | openParen | dot =>
    exact .bind (alike_subroutineCall owner owner' first first')
      fun _ _ _ => .pure _
  | _ => exact alike_optionalIndex owner owner'

theorem alike_term : (term owner).Alike Eq (term owner') := by
  refine .peek fun kind => ?_
  cases kind with
  | number | string => exact .pass _
  | kwTrue | kwFalse | kwNull | kwThis =>
    exact .bind (.take _) fun _ _ _ => .pure _
  | identifier => exact alike_namedTerm owner owner'
  | openParen => exact alike_condition owner owner'
  | dash | tilde => exact .bind (.take _) fun _ _ _ => .rule _ _ .term
  | _ => exact .refuse _

theorem alike_expression :
    (expression owner).Alike Eq (expression owner') :=
  .bind (.rule _ _ .term) fun _ _ _ => .bind (.many _ _ _) fun _ _ _ =>
    .pure _

theorem alike_item (repeated : Item) :
    (item owner repeated).Alike Eq (item owner' repeated) := by
  cases repeated with
  | classVarDec => exact .bind (.rule _ _ .classVarDec) fun _ _ _ => .pure _
  | subroutineDec =>
    exact .bind (.rule _ _ .subroutineDec) fun _ _ _ => .pure _
  | parameter =>
    exact .bind (.pass _) fun _ _ _ => .bind (.take _) fun _ _ _ =>
      .bind (.pass _) fun _ _ _ => .pure _
  | varDec => exact .rule _ _ .varDec
  | name =>
    exact .bind (.pass _) fun _ _ _ => .bind (.pass _) fun _ _ _ => .pure _
  | statement =>
    exact .bind (alike_statement owner owner') fun _ _ _ => .pure _
  | operand =>
    exact .bind (.take _) fun _ _ _ => .bind (.rule _ _ .term) fun _ _ _ =>
      .pure _
  | expression =>
    exact .bind (.pass _) fun _ _ _ =>
      .bind (.rule _ _ .expression) fun _ _ _ => .pure _

theorem alike_repetition (repeated : Item) :
    (repetition owner repeated).Alike Eq (repetition owner' repeated) := by
  refine .peek fun _ => .ite (.bind (alike_item owner owner' repeated) ?_)
    (.pure _)
  rintro one _ rfl
  refine .bind (.many _ _ _) ?_
  rintro more _ rfl
  exact .pure _

-- ========================================================== all bodies

/-- The bodies of a part decide alike, for whatever classes. -/
theorem alike_body (part : Part) :
    (body owner part).Alike part.Alike (body owner' part) := by
  cases part with
  | many repeated => exact alike_repetition owner owner' repeated
  | rule named =>
    cases named with
    | classDec => exact alike_classDec
    | classVarDec => exact alike_classVarDec owner owner'
    | subroutineDec => exact alike_subroutineDec owner owner'
    | parameterList => exact alike_parameterList owner owner'
    | subroutineBody => exact alike_subroutineBody owner owner'
    | varDec => exact alike_varDec owner owner'
    | statements => exact alike_statements owner owner'
    | letStatement => exact alike_letStatement owner owner'
    | ifStatement => exact alike_ifStatement owner owner'
    | whileStatement => exact alike_whileStatement owner owner'
    | doStatement => exact alike_doStatement owner owner'
    | returnStatement => exact alike_returnStatement owner owner'
    | expression => exact alike_expression owner owner'
    | term => exact alike_term owner owner'
    | expressionList => exact alike_expressionList owner owner'

end Recognizer

end JackSyntax
