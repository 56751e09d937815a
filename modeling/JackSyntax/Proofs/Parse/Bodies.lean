/-
The body of every part conforms to the phrase of the part. Each lemma
here goes along the text of one recognizer and composes the pieces it is
made of; where the grammar groups a phrase in another way than the
recognizer does, the two groupings are shown to derive the same.

`conforms_body` collects them, and is all that the rest of the theory
knows about the bodies.
-/
import JackSyntax.Proofs.Parse.Conformance

namespace JackSyntax.Recognizer

variable (owner : String)

-- ============================================================== pieces

theorem conforms_type (follow : List Kind) :
    type.Conforms .type follow :=
  .take

theorem conforms_names :
    (names owner).Conforms (.commaSeparated .name) [.semicolon] :=
  .bind_any (fun _ => .pass) rfl fun _ =>
    .last (.many owner .name) fun _ => .pure _

/-- A rule between two tokens, the second of which can follow it. -/
theorem conforms_enclosed {opening closing : Kind} {named : Rule}
    (hclosing : closing ∈ named.follow) (follow : List Kind) :
    (do pass opening; let _ ← rule owner named; pass closing).Conforms
      (.sequence [.kind opening, .rule named, .kind closing]) follow := by
  refine .bind_any (fun _ => .pass) rfl fun _ =>
    .bind (.rule owner named) (fun kind hkind => ?_) rfl fun _ => .pass
  obtain rfl : kind = closing := List.mem_singleton.1 hkind
  exact hclosing

theorem conforms_condition (follow : List Kind) :
    (condition owner).Conforms .parenthesized follow :=
  conforms_enclosed owner (by decide) follow

theorem conforms_block (follow : List Kind) :
    (block owner).Conforms .block follow :=
  conforms_enclosed owner (by decide) follow

/-- An index is there just if its bracket is next. -/
theorem conforms_optionalIndex (follow : List Kind)
    (h : ∀ kind ∈ follow, kind ≠ .openBracket) :
    (optionalIndex owner).Conforms (.optional .index) follow := by
  refine .look_optional (conforms_enclosed owner (by decide) follow)
    (.pure _) (fun kind hkind => ?_) h
  exact List.mem_singleton.1 hkind

-- ======================================================== declarations

theorem conforms_classDec :
    classDec.Conforms Rule.classDec.content Rule.classDec.follow :=
  .bind_any (fun _ => .pass) rfl fun _ =>
    .bind_any (fun _ => .take) rfl fun name =>
    .record fun _ =>
    .bind_any (fun _ => .pass) rfl fun _ =>
    .bind (.many name.value .classVarDec) (by decide) rfl fun _ =>
    .bind (.many name.value .subroutineDec) (by decide) rfl fun _ =>
    .last .pass fun _ => .pure _

theorem conforms_classVarDec :
    (classVarDec owner).Conforms Rule.classVarDec.content
      Rule.classVarDec.follow :=
  .bind_any (fun _ => .take) rfl fun _ =>
    .bind_any conforms_type rfl fun _ =>
    .bind (conforms_names owner) (by decide) rfl fun _ => .pass

/-- What a subroutine returns is nothing or a type. -/
theorem conforms_returnType (follow : List Kind) :
    (take Kind.returnTypes).Conforms
      (.choice [.kind .kwVoid, .type]) follow := by
  apply Conforms.congr .take
  intro forest
  exact derives_token_cons_iff.trans derives_either_iff.symm

theorem conforms_subroutineDec :
    (subroutineDec owner).Conforms Rule.subroutineDec.content
      Rule.subroutineDec.follow :=
  .bind_any (fun _ => .take) rfl fun _ =>
    .bind_any conforms_returnType rfl fun _ =>
    .bind_any (fun _ => .take) rfl fun _ =>
    .bind_any (fun _ => .pass) rfl fun _ =>
    .bind (.rule owner .parameterList) (by decide) rfl fun _ =>
    .bind_any (fun _ => .pass) rfl fun _ =>
    .last (.rule owner .subroutineBody) fun _ => .record_last

theorem conforms_parameterList :
    (parameterList owner).Conforms Rule.parameterList.content
      Rule.parameterList.follow := by
  refine .look_either (.pure 0) (.congr ?_ fun _ => derives_next_assoc.symm)
    (by decide) (by decide)
  exact .bind_any conforms_type rfl fun _ =>
    .bind_any (fun _ => .pass) rfl fun _ =>
    .last (.many owner .parameter) fun _ => .pure _

theorem conforms_subroutineBody :
    (subroutineBody owner).Conforms Rule.subroutineBody.content
      Rule.subroutineBody.follow :=
  .bind_any (fun _ => .pass) rfl fun _ =>
    .bind (.many owner .varDec) (by decide) rfl fun _ =>
    .bind (.rule owner .statements) (by decide) rfl fun _ =>
    .last .pass fun _ => .pure _

theorem conforms_varDec :
    (varDec owner).Conforms Rule.varDec.content Rule.varDec.follow :=
  .bind_any (fun _ => .pass) rfl fun _ =>
    .bind_any conforms_type rfl fun _ =>
    .bind (conforms_names owner) (by decide) rfl fun _ =>
    .last .pass fun _ => .pure _

-- ========================================================== statements

theorem conforms_statement :
    (statement owner).Conforms .statement Kind.statementEnds := by
  refine .look_refuse .statementExpected ?_ (fun kind h => ?_) rfl
    (by decide)
  · intro phrase hmem kind hkind
    simp only [List.mem_cons, List.not_mem_nil, or_false] at hmem
    rcases hmem with rfl | rfl | rfl | rfl | rfl <;>
      obtain rfl := List.mem_singleton.1 hkind
    · exact .rule owner .letStatement
    · exact .rule owner .ifStatement
    · exact .rule owner .whileStatement
    · exact .rule owner .doStatement
    · exact .rule owner .returnStatement
  · cases kind with
    | kwLet | kwIf | kwWhile | kwDo | kwReturn => exact absurd h (by decide)
    | _ => rfl

theorem conforms_statements :
    (statements owner).Conforms Rule.statements.content
      Rule.statements.follow :=
  .last (.many owner .statement) fun _ => .pure _

theorem conforms_letStatement :
    (letStatement owner).Conforms Rule.letStatement.content
      Rule.letStatement.follow :=
  .bind_any (fun _ => .pass) rfl fun _ =>
    .bind_any (fun _ => .pass) rfl fun _ =>
    .bind (conforms_optionalIndex owner [.equals] (by decide))
      (by decide) rfl fun _ =>
    .bind_any (fun _ => .pass) rfl fun _ =>
    .bind (.rule owner .expression) (by decide) rfl fun _ => .pass

theorem conforms_ifStatement :
    (ifStatement owner).Conforms Rule.ifStatement.content
      Rule.ifStatement.follow :=
  .bind_any (fun _ => .pass) rfl fun _ =>
    .bind_any (conforms_condition owner) rfl fun _ =>
    .bind_any (conforms_block owner) rfl fun _ =>
    .look_optional
      (.bind_any (fun _ => .pass) rfl fun _ => conforms_block owner _)
      (.pure _) (by decide) (by decide)

theorem conforms_whileStatement :
    (whileStatement owner).Conforms Rule.whileStatement.content
      Rule.whileStatement.follow :=
  .bind_any (fun _ => .pass) rfl fun _ =>
    .bind_any (conforms_condition owner) rfl fun _ =>
    conforms_block owner _

/-- A value is there unless the semicolon is next. -/
theorem conforms_returnStatement :
    (returnStatement owner).Conforms Rule.returnStatement.content
      Rule.returnStatement.follow := by
  refine .bind_any (fun _ => .pass) rfl fun _ => ?_
  refine .congr (.look_either (.bind (.rule owner .expression)
    (by decide) rfl fun _ => .pass) .pass (by decide) (by decide))
    fun forest => ?_
  exact derives_either_iff.trans derives_optional_next_iff.symm

-- =============================================================== calls

/-- What comes after the first name of a call: the arguments, or a second
name and then the arguments. -/
def callRest : Kind → Phrase
  | .openParen =>
    .sequence [.rule .expressionList, .kind .closeParen]
  | _ =>
    .sequence [.name, .kind .openParen, .rule .expressionList,
      .kind .closeParen]

/-- A call without its first name. -/
def callTail : Phrase :=
  .choice ([Kind.openParen, .dot].map fun kind =>
    .next (.kind kind) (callRest kind))

theorem conforms_subroutineCall (first : Token) (follow : List Kind) :
    (subroutineCall owner first).Conforms callTail follow := by
  refine .take_choice callRest (fun token hkind => ?_) (by decide)
    (by decide)
  have harguments : ∀ (target : String) (bare : Bool), (do
      let arguments ← rule owner .expressionList
      pass .closeParen
      let call : Call := ⟨target, arguments, bare, first.position.line⟩
      record (.call call)
      return call : Recognizer Call).Conforms
        (.sequence [.rule .expressionList, .kind .closeParen]) follow :=
    fun _ _ => .bind (.rule owner .expressionList) (fun _ hkind => hkind)
      rfl fun _ => .last .pass fun _ => .record fun _ => .pure _
  simp only [List.mem_cons, List.not_mem_nil, or_false] at hkind
  rcases hkind with hkind | hkind
  · rw [hkind, if_pos rfl]
    exact harguments _ _
  · rw [hkind, if_neg (by decide)]
    exact .bind_any (fun _ => .take) rfl fun _ =>
      .bind_any (fun _ => .pass) rfl fun _ => harguments _ _

/-- A call is its first name and the rest. -/
theorem derives_subroutineCall_iff (forest : Forest) :
    Derives (.next .name callTail) forest
      ↔ Derives .subroutineCall forest :=
  derives_next_either_iff.trans derives_either_iff.symm

theorem conforms_doStatement :
    (doStatement owner).Conforms Rule.doStatement.content
      Rule.doStatement.follow := by
  refine .bind_any (fun _ => .pass) rfl fun _ => .congr (.bind_any
    (fun _ => .take) rfl fun first =>
      .bind_any (conforms_subroutineCall owner first) rfl fun _ => .pass)
    fun forest => ?_
  exact derives_next_assoc.symm.trans
    (derives_next_congr derives_subroutineCall_iff (fun _ => .rfl) forest)

theorem conforms_expressionList :
    (expressionList owner).Conforms Rule.expressionList.content
      Rule.expressionList.follow :=
  .look_either (.pure 0) (.bind (.rule owner .expression)
    (by decide) rfl fun _ =>
    .last (.many owner .expression) fun _ => .pure _)
    (by decide) (by decide)

-- ========================================================= expressions

/-- A name is a call if an opening parenthesis or a dot is next, and
otherwise a variable with or without an index. -/
theorem conforms_namedTerm :
    (namedTerm owner).Conforms
      (.either (.next .name (.optional .index)) .subroutineCall)
      Rule.term.follow := by
  have hcall : ∀ first, (do let _ ← subroutineCall owner first).Conforms
      callTail Rule.term.follow := fun first =>
    .last (conforms_subroutineCall owner first _) fun _ => .pure _
  have hindex := conforms_optionalIndex owner Rule.term.follow (by decide)
  refine .congr (.bind_any (fun _ => .take) rfl fun first =>
    @Conforms.look_choice _ _ [.optional .index, callTail] _ ?_ ?_)
    fun forest => ?_
  · intro phrase hmem kind hkind
    simp only [List.mem_cons, List.not_mem_nil, or_false] at hmem
    rcases hmem with rfl | rfl
    · have hname : kind ≠ .openParen ∧ kind ≠ .dot := by
        revert kind
        decide
      split
      · exact absurd rfl hname.1
      · exact absurd rfl hname.2
      · exact hindex
    · have hname : kind = .openParen ∨ kind = .dot := by
        revert kind
        decide
      rcases hname with rfl | rfl
      · exact hcall first
      · exact hcall first
  · intro kind
    split
    · exact .inl ⟨_, by simp, hcall first⟩
    · exact .inl ⟨_, by simp, hcall first⟩
    · exact .inl ⟨_, by simp, hindex⟩
  · rw [derives_either_iff, ← derives_subroutineCall_iff]
    exact derives_next_either_iff

/-- The alternatives of a term, those that begin with a name as one. -/
def termAlternatives : List Phrase :=
  [.kind .number, .kind .string, .token Kind.constants,
    .either (.next .name (.optional .index)) .subroutineCall,
    .parenthesized, .next (.token Kind.unaryOperators) (.rule .term)]

theorem derives_termAlternatives_iff (forest : Forest) :
    Derives (.choice termAlternatives) forest
      ↔ Derives Rule.term.content forest := by
  simp only [termAlternatives, Rule.content, Phrase.choice,
    derives_either_iff, or_assoc]

theorem conforms_term :
    (term owner).Conforms Rule.term.content Rule.term.follow := by
  refine .congr (.look_refuse .termExpected ?_ (fun kind h => ?_) rfl
    (by decide)) derives_termAlternatives_iff
  · intro phrase hmem kind hkind
    simp only [termAlternatives, List.mem_cons, List.not_mem_nil,
      or_false] at hmem
    rcases hmem with rfl | rfl | rfl | rfl | rfl | rfl
    · obtain rfl := List.mem_singleton.1 hkind
      exact .pass
    · obtain rfl := List.mem_singleton.1 hkind
      exact .pass
    · have hconstant : kind ∈ Kind.constants := hkind
      simp only [Kind.constants, List.mem_cons, List.not_mem_nil,
        or_false] at hconstant
      rcases hconstant with rfl | rfl | rfl | rfl <;>
        exact .last .take fun _ => .pure _
    · obtain rfl : kind = .identifier := by
        revert kind
        decide
      exact conforms_namedTerm owner
    · obtain rfl := List.mem_singleton.1 hkind
      exact conforms_condition owner _
    · have hunary : kind ∈ Kind.unaryOperators := hkind
      simp only [Kind.unaryOperators, List.mem_cons, List.not_mem_nil,
        or_false] at hunary
      rcases hunary with rfl | rfl <;>
        exact .bind_any (fun _ => .take) rfl fun _ => .rule owner .term
  · cases kind with
    | number | string | kwTrue | kwFalse | kwNull | kwThis | identifier
    | openParen | dash | tilde => exact absurd h (by decide)
    | _ => rfl

theorem conforms_expression :
    (expression owner).Conforms Rule.expression.content
      Rule.expression.follow :=
  .bind (.rule owner .term) (by decide) rfl fun _ =>
    .last (.many owner .operand) fun _ => .pure _

-- ========================================================= repetitions

/-- What can follow one item of a repetition: another one, or what
follows the last. -/
def itemEnds (repeated : Item) : List Kind :=
  (Phrase.repeated repeated.phrase).headsBefore repeated.follow

theorem conforms_item (repeated : Item) :
    (item owner repeated).Conforms repeated.phrase (itemEnds repeated) := by
  cases repeated with
  | classVarDec => exact .last (.rule owner .classVarDec) fun _ => .pure _
  | subroutineDec => exact .last (.rule owner .subroutineDec) fun _ => .pure _
  | parameter =>
    exact .bind_any (fun _ => .pass) rfl fun _ =>
      .bind_any conforms_type rfl fun _ => .last .pass fun _ => .pure _
  | varDec => exact .rule owner .varDec
  | name =>
    exact .bind_any (fun _ => .pass) rfl fun _ =>
      .last .pass fun _ => .pure _
  | statement => exact .last (conforms_statement owner) fun _ => .pure _
  | operand =>
    exact .bind_any (fun _ => .take) rfl fun _ =>
      .last (.rule owner .term) fun _ => .pure _
  | expression =>
    exact .bind_any (fun _ => .pass) rfl fun _ =>
      .last (.mono (.rule owner .expression) (by decide)) fun _ => .pure _

/-- An item is taken just if one of its heads is next. -/
theorem conforms_repetition (repeated : Item) :
    (repetition owner repeated).Conforms (.repeated repeated.phrase)
      repeated.follow := by
  refine .congr (.look_either (.bind (conforms_item owner repeated)
    (fun _ hkind => hkind) ?_
    fun _ => .last (.many owner repeated) fun _ => .pure _) (.pure 0) ?_ ?_)
    fun _ => derives_either_iff.trans derives_repeated_iff.symm
  · cases repeated <;> rfl
  · cases repeated <;> decide
  · cases repeated <;> decide

-- ========================================================== all bodies

/-- The body of a part recognizes what the part stands for. -/
theorem conforms_body (part : Part) :
    (body owner part).Conforms part.content part.follow := by
  cases part with
  | many repeated => exact conforms_repetition owner repeated
  | rule entered =>
    cases entered with
    | classDec => exact conforms_classDec
    | classVarDec => exact conforms_classVarDec owner
    | subroutineDec => exact conforms_subroutineDec owner
    | parameterList => exact conforms_parameterList owner
    | subroutineBody => exact conforms_subroutineBody owner
    | varDec => exact conforms_varDec owner
    | statements => exact conforms_statements owner
    | letStatement => exact conforms_letStatement owner
    | ifStatement => exact conforms_ifStatement owner
    | whileStatement => exact conforms_whileStatement owner
    | doStatement => exact conforms_doStatement owner
    | returnStatement => exact conforms_returnStatement owner
    | expression => exact conforms_expression owner
    | term => exact conforms_term owner
    | expressionList => exact conforms_expressionList owner

end JackSyntax.Recognizer
