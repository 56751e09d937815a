/-
Why a recognizer fails, and where. A reason is apt at a token if it offers
some kinds, and not the one that is there. An accepting step rejects a
token for not being among its kinds, so all that can be wrong with it is
that it has none; a refusal is apt only if the looks before it have ruled
out what it offers.

`Recognizer.Apt` is read off the text of a recognizer, given the kind of
the next token as far as that is known: up to the first token or part,
and after those it may be any. All bodies are apt (`apt_body`), among them
that of a statement, which is only called where one of its heads is next
and so never complains; hence every run that fails does so for an apt
reason (`Runs.isApt`).
-/
import JackSyntax.Proofs.Parse.Window

namespace JackSyntax

variable {α β : Type}

/-- A reason of a recognizer at a token of the kind that offers something
else than that. A recognizer does not miss a statement and knows nothing
of what follows a class. -/
def Reason.IsApt (kind : Kind) : Reason → Prop
  | .expected kinds => kinds ≠ [] ∧ kind ∉ kinds
  | .termExpected => kind ∉ Kind.termHeads
  | .statementExpected | .trailingInput => False
  | .nestingTooDeep _ => True

namespace Recognizer

-- ========================================================== the reading

/-- With a token of the kind next, all failures of the recognizer itself
are apt. After a token or a part any kind may be next. -/
def Apt : Recognizer α → Kind → Prop
  | .done _, _ => True
  | .look next, kind => (next kind).Apt kind
  | .accept kinds next, _ =>
    kinds ≠ [] ∧ ∀ token after, (next token).Apt after
  | .refuse reason, kind => reason.IsApt kind
  | .note _ next, kind => next.Apt kind
  | .call _ _ next, _ => ∀ value after, (next value).Apt after

namespace Apt

variable {owner : String} {kind : Kind}

theorem bind {first : Recognizer α} {next : α → Recognizer β}
    (hfirst : first.Apt kind)
    (hnext : ∀ value after, (next value).Apt after) :
    (first >>= next).Apt kind := by
  induction first generalizing kind with
  | done value => exact hnext value kind
  | look choose ih => exact ih kind hfirst
  | accept kinds rest ih =>
    exact ⟨hfirst.1, fun token after => ih token (hfirst.2 token after)⟩
  | refuse reason => exact hfirst
  | note left rest ih => exact ih hfirst
  | call name part rest ih =>
    exact fun value after => ih value (hfirst value after)

theorem pure (value : α) : (Pure.pure value : Recognizer α).Apt kind :=
  trivial

theorem take {kinds : List Kind} (h : kinds ≠ []) :
    (Recognizer.take kinds).Apt kind := ⟨h, fun _ _ => trivial⟩

theorem pass (passed : Kind) : (Recognizer.pass passed).Apt kind :=
  ⟨List.cons_ne_nil passed [], fun _ _ => trivial⟩

theorem record (left : Note) : (Recognizer.record left).Apt kind := trivial

theorem look {next : Kind → Recognizer α} (h : (next kind).Apt kind) :
    (peek >>= next).Apt kind := h

theorem ite {test : Prop} [Decidable test] {one other : Recognizer α}
    (hone : one.Apt kind) (hother : other.Apt kind) :
    (if test then one else other).Apt kind := by
  split
  · exact hone
  · exact hother

theorem rule (named : Rule) : (Recognizer.rule owner named).Apt kind :=
  fun _ _ => trivial

theorem many (item : Item) : (Recognizer.many owner item).Apt kind :=
  fun _ _ => trivial

end Apt

-- ======================================================== along the text

variable (owner : String) (kind : Kind)

theorem apt_type : type.Apt kind := .take (by decide)

theorem apt_names : (names owner).Apt kind :=
  .bind (.pass _) fun _ _ => .bind (.many _) fun _ _ => .pure _

/-- A rule between two tokens. -/
theorem apt_enclosed (opening closing : Kind) (named : Rule) :
    (do pass opening; let _ ← rule owner named; pass closing).Apt kind :=
  .bind (.pass _) fun _ _ => .bind (.rule _) fun _ _ => .pass _

theorem apt_optionalIndex : (optionalIndex owner).Apt kind :=
  .look (.ite (apt_enclosed owner kind _ _ _) (.pure _))

theorem apt_subroutineCall (first : Token) :
    (subroutineCall owner first).Apt kind := by
  have harguments : ∀ target bare after, (do
      let arguments ← rule owner .expressionList
      pass .closeParen
      let call : Call := ⟨target, arguments, bare, first.position.line⟩
      record (.call call)
      return call : Recognizer Call).Apt after := fun _ _ _ =>
    .bind (.rule _) fun _ _ => .bind (.pass _) fun _ _ =>
      .bind (.record _) fun _ _ => .pure _
  exact .bind (.take (by decide)) fun _ _ => .ite (harguments _ _ _) <|
    .bind (.take (by decide)) fun _ _ => .bind (.pass _) fun _ _ =>
      harguments _ _ _

theorem apt_classDec : classDec.Apt kind :=
  .bind (.pass _) fun _ _ => .bind (.take (by decide)) fun _ _ =>
    .bind (.record _) fun _ _ => .bind (.pass _) fun _ _ =>
    .bind (.many _) fun _ _ => .bind (.many _) fun _ _ =>
    .bind (.pass _) fun _ _ => .pure _

theorem apt_classVarDec : (classVarDec owner).Apt kind :=
  .bind (.take (by decide)) fun _ _ => .bind (apt_type _) fun _ _ =>
    .bind (apt_names owner _) fun _ _ => .pass _

theorem apt_subroutineDec : (subroutineDec owner).Apt kind :=
  .bind (.take (by decide)) fun _ _ => .bind (.take (by decide)) fun _ _ =>
    .bind (.take (by decide)) fun _ _ => .bind (.pass _) fun _ _ =>
    .bind (.rule _) fun _ _ => .bind (.pass _) fun _ _ =>
    .bind (.rule _) fun _ _ => .record _

theorem apt_parameterList : (parameterList owner).Apt kind :=
  .look <| .ite (.pure _) <| .bind (apt_type _) fun _ _ =>
    .bind (.pass _) fun _ _ => .bind (.many _) fun _ _ => .pure _

theorem apt_subroutineBody : (subroutineBody owner).Apt kind :=
  .bind (.pass _) fun _ _ => .bind (.many _) fun _ _ =>
    .bind (.rule _) fun _ _ => .bind (.pass _) fun _ _ => .pure _

theorem apt_varDec : (varDec owner).Apt kind :=
  .bind (.pass _) fun _ _ => .bind (apt_type _) fun _ _ =>
    .bind (apt_names owner _) fun _ _ => .bind (.pass _) fun _ _ => .pure _

/-- Where a statement can start, it is not missed. -/
theorem apt_statement {kind : Kind} (h : kind ∈ Kind.statementHeads) :
    (statement owner).Apt kind := by
  apply Apt.look
  cases kind with
  | kwLet => exact .rule _
  | kwIf => exact .rule _
  | kwWhile => exact .rule _
  | kwDo => exact .rule _
  | kwReturn => exact .rule _
  | _ => exact absurd h (by decide)

theorem apt_statements : (statements owner).Apt kind :=
  .bind (.many _) fun _ _ => .pure _

theorem apt_letStatement : (letStatement owner).Apt kind :=
  .bind (.pass _) fun _ _ => .bind (.pass _) fun _ _ =>
    .bind (apt_optionalIndex owner _) fun _ _ => .bind (.pass _) fun _ _ =>
    .bind (.rule _) fun _ _ => .pass _

theorem apt_ifStatement : (ifStatement owner).Apt kind :=
  .bind (.pass _) fun _ _ => .bind (apt_enclosed owner _ _ _ _) fun _ _ =>
    .bind (apt_enclosed owner _ _ _ _) fun _ _ => .look <|
    .ite (.bind (.pass _) fun _ _ => apt_enclosed owner _ _ _ _) (.pure _)

theorem apt_whileStatement : (whileStatement owner).Apt kind :=
  .bind (.pass _) fun _ _ => .bind (apt_enclosed owner _ _ _ _) fun _ _ =>
    apt_enclosed owner _ _ _ _

theorem apt_doStatement : (doStatement owner).Apt kind :=
  .bind (.pass _) fun _ _ => .bind (.take (by decide)) fun first _ =>
    .bind (apt_subroutineCall owner _ first) fun _ _ => .pass _

theorem apt_returnStatement : (returnStatement owner).Apt kind :=
  .bind (.pass _) fun _ _ => .look <|
    .ite (.bind (.rule _) fun _ _ => .pass _) (.pass _)

theorem apt_expression : (expression owner).Apt kind :=
  .bind (.rule _) fun _ _ => .bind (.many _) fun _ _ => .pure _

theorem apt_expressionList : (expressionList owner).Apt kind :=
  .look <| .ite (.pure _) <| .bind (.rule _) fun _ _ =>
    .bind (.many _) fun _ _ => .pure _

theorem apt_namedTerm : (namedTerm owner).Apt kind := by
  have hcall : ∀ first after,
      (do let _ ← subroutineCall owner first).Apt after := fun first after =>
    .bind (apt_subroutineCall owner after first) fun _ _ => .pure _
  refine .bind (.take (by decide)) fun first after => .look ?_
  split
  · exact hcall first _
  · exact hcall first _
  · exact apt_optionalIndex owner _

/-- A term is missed only where none can start. -/
theorem apt_term : (term owner).Apt kind := by
  apply Apt.look
  cases kind with
  | number => exact .pass _
  | string => exact .pass _
  | kwTrue | kwFalse | kwNull | kwThis =>
    exact .bind (.take (by decide)) fun _ _ => .pure _
  | identifier => exact apt_namedTerm owner _
  | openParen => exact apt_enclosed owner _ _ _ _
  | dash | tilde => exact .bind (.take (by decide)) fun _ _ => .rule _
  | _ =>
    show _ ∉ Kind.termHeads
    decide

/-- An item is called only where it can start. -/
theorem apt_item {kind : Kind} {repeated : Item}
    (h : kind ∈ repeated.heads) : (item owner repeated).Apt kind := by
  cases repeated with
  | classVarDec => exact .bind (.rule _) fun _ _ => .pure _
  | subroutineDec => exact .bind (.rule _) fun _ _ => .pure _
  | parameter =>
    exact .bind (.pass _) fun _ _ => .bind (apt_type _) fun _ _ =>
      .bind (.pass _) fun _ _ => .pure _
  | varDec => exact .rule _
  | name =>
    exact .bind (.pass _) fun _ _ => .bind (.pass _) fun _ _ => .pure _
  | statement => exact .bind (apt_statement owner h) fun _ _ => .pure _
  | operand =>
    exact .bind (.take (by decide)) fun _ _ => .bind (.rule _) fun _ _ =>
      .pure _
  | expression =>
    exact .bind (.pass _) fun _ _ => .bind (.rule _) fun _ _ => .pure _

theorem apt_repetition (repeated : Item) :
    (repetition owner repeated).Apt kind := by
  apply Apt.look
  by_cases h : repeated.heads.contains kind = true
  · rw [if_pos h]
    exact .bind (apt_item owner (List.contains_iff_mem.1 h)) fun _ _ =>
      .bind (.many _) fun _ _ => .pure _
  · rw [if_neg h]
    exact .pure _

/-- Every body is apt, whatever token is next. -/
theorem apt_body (part : Part) : (body owner part).Apt kind := by
  cases part with
  | many repeated => exact apt_repetition owner kind repeated
  | rule entered =>
    cases entered with
    | classDec => exact apt_classDec kind
    | classVarDec => exact apt_classVarDec owner kind
    | subroutineDec => exact apt_subroutineDec owner kind
    | parameterList => exact apt_parameterList owner kind
    | subroutineBody => exact apt_subroutineBody owner kind
    | varDec => exact apt_varDec owner kind
    | statements => exact apt_statements owner kind
    | letStatement => exact apt_letStatement owner kind
    | ifStatement => exact apt_ifStatement owner kind
    | whileStatement => exact apt_whileStatement owner kind
    | doStatement => exact apt_doStatement owner kind
    | returnStatement => exact apt_returnStatement owner kind
    | expression => exact apt_expression owner kind
    | term => exact apt_term owner kind
    | expressionList => exact apt_expressionList owner kind

-- ============================================================ the runs

/-- A run of a recognizer that is apt, where it starts, fails for a reason
that is apt where it ends. -/
theorem Runs.isApt {recognizer : Recognizer α} {parser after : Parser}
    {tokens : List Token} {outcome : Outcome α} {error : SyntaxError}
    (h : recognizer.Runs parser tokens outcome)
    (hapt : recognizer.Apt parser.lookahead.kind)
    (hfailed : outcome = .failed error after) :
    error.reason.IsApt after.lookahead.kind := by
  induction h generalizing after with
  | done value parser => cases hfailed
  | look _ ih => exact ih hapt hfailed
  | accept _ _ ih => exact ih (hapt.2 _ _) hfailed
  | reject hkind =>
    cases hfailed
    exact ⟨hapt.1, hkind⟩
  | refuse reason parser =>
    cases hfailed
    exact hapt
  | note _ ih => exact ih hapt hfailed
  | shut hopen =>
    cases hfailed
    obtain ⟨-, -, rfl, -⟩ := Parser.openPart_failed hopen
    trivial
  | @stuck _ owner part _ _ entered _ _ _ _ _ ih =>
    -- where the call stands does not matter: the body is apt anywhere
    cases hfailed
    exact ih (apt_body owner entered.lookahead.kind part) rfl
  | through _ _ _ _ ihNext => exact ihNext (hapt _ _) hfailed

end Recognizer

end JackSyntax
