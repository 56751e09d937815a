/-
What can come first and what can come next. For each phrase there are the
kinds with which a nonempty derivation of it begins (`Phrase.heads`) and
whether it derives the empty row (`Phrase.isNullable`); both are read off
the phrase, given the same for the rules in it, and the tables for the
rules agree with their contents (`heads_content`, `isNullable_content`).

`Derives.firstKind_mem` is what the tables are for: with one of the
following kinds after it, a derivation begins with a kind that
`Phrase.headsBefore` lists. That a grammar can be recognized by looking
one token ahead then comes down to finite checks.
-/
import JackSyntax.Proofs.Grammar.Derivation

namespace JackSyntax

-- ====================================================== the first kind

/-- The kind of the first token, or what follows if there is none. -/
def firstKind : List Token → Kind → Kind
  | [], next => next
  | token :: _, _ => token.kind

theorem firstKind_append (front back : List Token) (next : Kind) :
    firstKind (front ++ back) next
      = firstKind front (firstKind back next) := by
  cases front <;> rfl

/-- The kind with which a row of trees and what follows it begins. -/
def Forest.firstKind (forest : Forest) (next : Kind) : Kind :=
  JackSyntax.firstKind forest.leaves next

namespace Forest

@[simp] theorem firstKind_node (rule : Rule) (inside rest : Forest)
    (next : Kind) :
    (node rule inside rest).firstKind next
      = inside.firstKind (rest.firstKind next) :=
  firstKind_append inside.leaves rest.leaves next

@[simp] theorem firstKind_append (front back : Forest) (next : Kind) :
    (front ++ back).firstKind next
      = front.firstKind (back.firstKind next) := by
  rw [firstKind, leaves_append]
  exact JackSyntax.firstKind_append front.leaves back.leaves next

end Forest

-- ============================================================ the heads

/-- What a term begins with. -/
def Kind.termHeads : List Kind :=
  [.number, .string, .kwTrue, .kwFalse, .kwNull, .kwThis, .identifier,
    .openParen, .dash, .tilde]

namespace Rule

/-- The rule derives the empty row. -/
def isNullable : Rule → Bool
  | .parameterList | .statements | .expressionList => true
  | _ => false

/-- The kinds with which a nonempty row of the rule begins. -/
def heads : Rule → List Kind
  | .classDec => [.kwClass]
  | .classVarDec => Kind.classVarHeads
  | .subroutineDec => Kind.subroutineHeads
  | .parameterList => Kind.types
  | .subroutineBody => [.openCurly]
  | .varDec => [.kwVar]
  | .statements => Kind.statementHeads
  | .letStatement => [.kwLet]
  | .ifStatement => [.kwIf]
  | .whileStatement => [.kwWhile]
  | .doStatement => [.kwDo]
  | .returnStatement => [.kwReturn]
  | .expression | .term | .expressionList => Kind.termHeads

end Rule

namespace Phrase

/-- The phrase derives the empty row. -/
def isNullable : Phrase → Bool
  | .token _ => false
  | .rule named => named.isNullable
  | .nothing | .repeated _ => true
  | .next first second => first.isNullable && second.isNullable
  | .either first second => first.isNullable || second.isNullable

/-- The kinds with which a nonempty row of the phrase begins, given the
same for the rules. -/
def headsBy (known : Rule → List Kind) : Phrase → List Kind
  | .token kinds => kinds
  | .rule named => known named
  | .nothing => []
  | .next first second =>
    first.headsBy known
      ++ if first.isNullable then second.headsBy known else []
  | .either first second => first.headsBy known ++ second.headsBy known
  | .repeated phrase => phrase.headsBy known

/-- The kinds with which a nonempty row of the phrase begins. -/
def heads (phrase : Phrase) : List Kind := phrase.headsBy Rule.heads

/-- The kinds with which the phrase and what follows it can begin. -/
def headsBefore (phrase : Phrase) (follow : List Kind) : List Kind :=
  phrase.heads ++ if phrase.isNullable then follow else []

end Phrase

theorem Rule.isNullable_content (rule : Rule) :
    rule.content.isNullable = rule.isNullable := by
  cases rule <;> rfl

theorem Rule.heads_content (rule : Rule) :
    ∀ kind ∈ rule.content.heads, kind ∈ rule.heads := by
  cases rule <;> decide

/-- A derivation begins with one of the heads of its phrase, unless it is
empty and the phrase can be. -/
theorem Derives.firstKind_cases {phrase : Phrase} {forest : Forest}
    (h : Derives phrase forest) :
    (∀ next, forest.firstKind next ∈ phrase.heads)
      ∨ (phrase.isNullable = true ∧ ∀ next, forest.firstKind next = next) := by
  induction h with
  | token hkind => exact .inl fun _ => hkind
  | @rule rule inside _ ih =>
    rcases ih with ih | ⟨hnull, ih⟩
    · refine .inl fun next => rule.heads_content _ ?_
      rw [Forest.firstKind_node]
      exact ih _
    · refine .inr ⟨rule.isNullable_content.symm.trans hnull, fun next => ?_⟩
      rw [Forest.firstKind_node, ih]
      rfl
  | nothing => exact .inr ⟨rfl, fun _ => rfl⟩
  | next _ _ ihFirst ihSecond =>
    simp only [Forest.firstKind_append, Phrase.heads, Phrase.headsBy,
      Phrase.isNullable, List.mem_append]
    rcases ihFirst with ihFirst | ⟨hnull, ihFirst⟩
    · exact .inl fun next => .inl (ihFirst _)
    · rw [hnull, if_pos rfl]
      simp only [ihFirst]
      rcases ihSecond with ihSecond | ⟨hnull', ihSecond⟩
      · exact .inl fun next => .inr (ihSecond next)
      · exact .inr ⟨by rw [hnull', Bool.and_true], ihSecond⟩
  | left _ ih =>
    simp only [Phrase.heads, Phrase.headsBy, Phrase.isNullable,
      List.mem_append]
    rcases ih with ih | ⟨hnull, ih⟩
    · exact .inl fun next => .inl (ih next)
    · exact .inr ⟨by rw [hnull, Bool.true_or], ih⟩
  | right _ ih =>
    simp only [Phrase.heads, Phrase.headsBy, Phrase.isNullable,
      List.mem_append]
    rcases ih with ih | ⟨hnull, ih⟩
    · exact .inl fun next => .inr (ih next)
    · exact .inr ⟨by rw [hnull, Bool.or_true], ih⟩
  | stop => exact .inr ⟨rfl, fun _ => rfl⟩
  | more _ _ ihOne ihRest =>
    simp only [Forest.firstKind_append]
    rcases ihOne with ihOne | ⟨-, ihOne⟩
    · exact .inl fun next => ihOne _
    · simp only [ihOne]
      exact ihRest

/-- With one of the following kinds after it, a derivation begins with a
kind that the phrase and what follows it can begin with. -/
theorem Derives.firstKind_mem {phrase : Phrase} {forest : Forest}
    {follow : List Kind} {next : Kind} (h : Derives phrase forest)
    (hnext : next ∈ follow) :
    forest.firstKind next ∈ phrase.headsBefore follow := by
  rw [Phrase.headsBefore, List.mem_append]
  rcases h.firstKind_cases with hheads | ⟨hnull, hempty⟩
  · exact .inl (hheads next)
  · rw [hnull, if_pos rfl, hempty]
    exact .inr hnext

-- ====================================================== what can follow

/-- What can follow an expression. -/
def Kind.expressionEnds : List Kind :=
  [.closeParen, .closeBracket, .semicolon, .comma]

/-- What can follow a statement or a declaration of local variables. -/
def Kind.statementEnds : List Kind := Kind.statementHeads ++ [.closeCurly]

/-- What can follow a subroutine. -/
def Kind.subroutineEnds : List Kind := Kind.subroutineHeads ++ [.closeCurly]

/-- The kinds that can follow a rule in a class. -/
def Rule.follow : Rule → List Kind
  | .classDec => [.eof]
  | .classVarDec => Kind.classVarHeads ++ Kind.subroutineEnds
  | .subroutineDec | .subroutineBody => Kind.subroutineEnds
  | .parameterList | .expressionList => [.closeParen]
  | .varDec => .kwVar :: Kind.statementEnds
  | .statements => [.closeCurly]
  | .letStatement | .ifStatement | .whileStatement | .doStatement
  | .returnStatement => Kind.statementEnds
  | .expression => Kind.expressionEnds
  | .term => Kind.operators ++ Kind.expressionEnds

end JackSyntax
