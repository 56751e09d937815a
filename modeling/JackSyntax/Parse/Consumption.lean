/-
What can be read off the text of a recognizer about the tokens that it
will accept. Two properties are checked here, one body after the other:
whether it accepts a token whenever it succeeds (`Consumes`), and that
it calls only parts of lower rank before it has accepted one
(`CallsBelow`). There are three ranks, so calls that accept nothing
cannot go on for long.
-/
import JackSyntax.Parse.Rules

namespace JackSyntax

-- ===================================================== consuming parts

/-- The parts that accept a token whenever they succeed. The others can
be empty: a list of statements, parameters or arguments, and any
repetition. -/
def Part.isSolid : Part → Bool
  | .rule .statements | .rule .parameterList | .rule .expressionList
  | .many _ => false
  | .rule _ => true

/-- A part can call at once only parts of lower rank. -/
def Part.rank : Part → Nat
  | .rule .statements | .rule .expressionList => 2
  | .rule .expression | .many _ => 1
  | .rule _ => 0

theorem Part.rank_le (part : Part) : part.rank ≤ 2 := by
  cases part with
  | many item => exact Nat.le_succ 1
  | rule rule => cases rule <;> decide

namespace Recognizer

variable {α β : Type}

/-- A recognizer that accepts a token whenever it succeeds, seen from
its text. -/
def Consumes : Recognizer α → Prop
  | .done _ => False
  | .look next => ∀ kind, (next kind).Consumes
  | .accept kinds _ => .eof ∉ kinds
  | .refuse _ => True
  | .note _ next => next.Consumes
  | .call _ part next => part.isSolid ∨ ∀ value, (next value).Consumes

/-- A recognizer that, before it has accepted a token, calls only parts
of lower rank. -/
def CallsBelow (rank : Nat) : Recognizer α → Prop
  | .done _ | .refuse _ => True
  | .look next => ∀ kind, (next kind).CallsBelow rank
  | .accept kinds _ => .eof ∉ kinds
  | .note _ next => next.CallsBelow rank
  | .call _ part next =>
    part.rank < rank ∧ (part.isSolid ∨ ∀ value, (next value).CallsBelow rank)

theorem consumes_bind {first : Recognizer α} {next : α → Recognizer β}
    (h : first.Consumes) : (first.bind next).Consumes := by
  induction first with
  | done value => cases h
  | look choose ih => exact fun kind => ih kind (h kind)
  | accept kinds rest ih => exact h
  | refuse reason => trivial
  | note left rest ih => exact ih h
  | call owner part rest ih =>
    rcases h with h | h
    · exact .inl h
    · exact .inr fun value => ih value (h value)

theorem callsBelow_bind {rank : Nat} {first : Recognizer α}
    {next : α → Recognizer β} (h : first.CallsBelow rank)
    (hnext : first.Consumes ∨ ∀ value, (next value).CallsBelow rank) :
    (first.bind next).CallsBelow rank := by
  induction first with
  | done value => exact hnext.resolve_left id value
  | look choose ih =>
    exact fun kind => ih kind (h kind) (hnext.imp_left (· kind))
  | accept kinds rest ih => exact h
  | refuse reason => trivial
  | note left rest ih => exact ih h hnext
  | call owner part rest ih =>
    refine ⟨h.1, h.2.elim .inl fun h => ?_⟩
    rcases hnext with hnext | hnext
    · rcases hnext with hsolid | hnext
      · exact .inl hsolid
      · exact .inr fun value => ih value (h value) (.inl (hnext value))
    · exact .inr fun value => ih value (h value) (.inr hnext)

/-- A statement is a solid part, whichever it is. -/
theorem consumes_statement (owner : String) :
    (statement owner).Consumes := by
  intro kind
  cases kind with
  | kwLet | kwIf | kwWhile | kwDo | kwReturn => exact .inl rfl
  | _ => trivial

theorem callsBelow_statement (owner : String) :
    (statement owner).CallsBelow 1 := by
  intro kind
  cases kind with
  | kwLet | kwIf | kwWhile | kwDo | kwReturn =>
    exact ⟨Nat.one_pos, .inl rfl⟩
  | _ => trivial

theorem consumes_item (owner : String) (repeated : Item) :
    (item owner repeated).Consumes := by
  cases repeated with
  | statement => exact consumes_bind (consumes_statement owner)
  | classVarDec | subroutineDec | varDec => exact .inl rfl
  | parameter | name | operand | expression =>
    change Kind.eof ∉ (_ : List Kind)
    decide

theorem callsBelow_item (owner : String) (repeated : Item) :
    (item owner repeated).CallsBelow 1 := by
  cases repeated with
  | statement =>
    exact callsBelow_bind (callsBelow_statement owner)
      (.inl (consumes_statement owner))
  | classVarDec | subroutineDec | varDec =>
    exact ⟨Nat.one_pos, .inl rfl⟩
  | parameter | name | operand | expression =>
    change Kind.eof ∉ (_ : List Kind)
    decide

theorem consumes_term (owner : String) : (term owner).Consumes := by
  intro kind
  cases kind with
  | number | string | identifier | openParen | dash | tilde | kwTrue
  | kwFalse | kwNull | kwThis =>
    change Kind.eof ∉ (_ : List Kind)
    decide
  | _ => trivial

theorem callsBelow_term (owner : String) :
    (term owner).CallsBelow 0 := by
  intro kind
  cases kind with
  | number | string | identifier | openParen | dash | tilde | kwTrue
  | kwFalse | kwNull | kwThis =>
    change Kind.eof ∉ (_ : List Kind)
    decide
  | _ => trivial

theorem callsBelow_parameterList (owner : String) :
    (parameterList owner).CallsBelow 0 := by
  intro kind
  by_cases hclose : kind = .closeParen
  · rw [hclose]
    trivial
  · simp only [bind]
    rw [if_neg hclose]
    change Kind.eof ∉ Kind.types
    decide

theorem callsBelow_repetition (owner : String) (repeated : Item) :
    (repetition owner repeated).CallsBelow 1 := by
  intro kind
  simp only [bind]
  split
  · exact callsBelow_bind (callsBelow_item owner repeated)
        (.inl (consumes_item owner repeated))
  · trivial

theorem callsBelow_expressionList (owner : String) :
    (expressionList owner).CallsBelow 2 := by
  intro kind
  by_cases hclose : kind = .closeParen
  · rw [hclose]
    trivial
  · simp only [bind]
    rw [if_neg hclose]
    exact ⟨Nat.lt_succ_self 1, .inl rfl⟩

/-- The body of a solid part consumes. -/
theorem consumes_body (owner : String) (part : Part)
    (h : part.isSolid = true) : (body owner part).Consumes := by
  cases part with
  | many repeated => cases h
  | rule entered =>
    cases entered with
    | statements | parameterList | expressionList => cases h
    | expression => exact .inl rfl
    | term => exact consumes_term owner
    | _ =>
      change Kind.eof ∉ (_ : List Kind)
      decide

/-- A body calls below the rank of its part. -/
theorem callsBelow_body (owner : String) (part : Part) :
    (body owner part).CallsBelow part.rank := by
  cases part with
  | many repeated => exact callsBelow_repetition owner repeated
  | rule entered =>
    cases entered with
    | statements => exact ⟨Nat.lt_succ_self 1, .inr fun _ => trivial⟩
    | expression => exact ⟨Nat.one_pos, .inl rfl⟩
    | term => exact callsBelow_term owner
    | parameterList => exact callsBelow_parameterList owner
    | expressionList => exact callsBelow_expressionList owner
    | _ =>
      change Kind.eof ∉ (_ : List Kind)
      decide

end Recognizer

end JackSyntax
