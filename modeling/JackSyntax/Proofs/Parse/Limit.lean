/-
What the limit on the nesting can do to a result: replace it by the error
that the nesting is too deep, and nothing else (`parse_limit`).

A run that comes to anything but that error comes to the same under any
higher limit (`parse_eq_of_reaches`). A run that comes to that error has
it from the opening of a counted rule, which names the limit of its
parser, for no body gives this reason of its own; and the limit is the
same from the start of a run to its end.
-/
import JackSyntax.Proofs.Parse.Acts
import JackSyntax.Proofs.Parse.CorrectPrefix

namespace JackSyntax

variable {α : Type}

namespace Recognizer

-- ================================================ errors of the nesting

/-- Acts other than to complain of the nesting. -/
def SparesNesting : Act → Prop
  | .refuse reason => ∀ deep, reason ≠ .nestingTooDeep deep
  | _ => True

/-- What a part does is not to complain of the nesting. -/
theorem sparesNesting_of_does {part : Part} {owner : String} {act : Act}
    (h : part.Does owner act) : SparesNesting act := by
  cases act with
  | call name callee => trivial
  | note left => trivial
  | refuse reason =>
    intro deep hdeep
    subst hdeep
    have hreason : .nestingTooDeep deep ∈ part.reasons := h
    unfold Part.reasons at hreason
    split at hreason <;> simp at hreason

/-- No body complains of the nesting; only the opening of a rule does. -/
theorem uses_sparesNesting (owner : String) (part : Part) :
    (body owner part).Uses SparesNesting :=
  (uses_body owner part).mono fun _ => sparesNesting_of_does

/-- The error that the nesting is too deep names the limit of the
parser. -/
theorem Runs.deep_eq_limit {recognizer : Recognizer α}
    {parser after : Parser} {tokens : List Token} {outcome : Outcome α}
    {error : SyntaxError} {deep : Nat}
    (h : recognizer.Runs parser tokens outcome)
    (huses : recognizer.Uses SparesNesting)
    (hfailed : outcome = .failed error after)
    (hdeep : error.reason = .nestingTooDeep deep) :
    deep = parser.limit := by
  induction h generalizing after with
  | done value parser => cases hfailed
  | look _ ih => exact ih (huses _) hfailed
  | accept _ _ ih => exact ih (huses _) hfailed
  | reject _ =>
    cases hfailed
    cases hdeep
  | refuse reason parser =>
    cases hfailed
    exact absurd hdeep (huses deep)
  | note _ ih => exact ih huses.2 hfailed
  | shut hopen =>
    cases hfailed
    obtain ⟨-, -, rfl, -⟩ := Parser.openPart_failed hopen
    cases hdeep
    rfl
  | @stuck _ owner part _ _ _ _ _ _ hopen _ ih =>
    cases hfailed
    obtain ⟨-, hlimit, -⟩ := Parser.openPart_done hopen
    rw [← hlimit]
    exact ih (uses_sparesNesting owner part) rfl
  | through hopen hbody _ _ ihNext =>
    -- the part has left the limit as it was
    obtain ⟨_, _, -, -, hpasses⟩ := hbody.passes derived_body rfl
    rw [← (Parser.Passes.part hopen hpasses).limit]
    exact ihNext (huses.2 _) hfailed

end Recognizer

-- ======================================================= whole classes

/-- An error that the nesting is too deep names the limit that was
set. -/
theorem deep_eq_of_error {source : TokenSource} {limit deep : Nat}
    {error : SyntaxError} (h : parse source limit = .error error)
    (hdeep : error.reason = .nestingTooDeep deep) : deep = limit := by
  obtain ⟨tokens, outcome, hruns, hresult⟩ := exists_runs_parse source limit
  have herror : outcome.parsed = .error error := hresult.symm.trans h
  cases outcome with
  | failed found after =>
    cases herror
    exact hruns.deep_eq_limit ⟨trivial, fun _ => trivial⟩ rfl hdeep
  | done name after =>
    rw [Outcome.parsed] at herror
    split at herror
    · cases herror
    · cases herror
      cases hdeep

/-- A result other than that the nesting is too deep is the result under
every higher limit. -/
theorem parse_eq_of_limit_le {source : TokenSource} {limit bound : Nat}
    (hle : limit ≤ bound)
    (hshallow : ∀ error deep, parse source limit = .error error →
      error.reason ≠ .nestingTooDeep deep) :
    parse source bound = parse source limit := by
  obtain ⟨tokens, outcome, hruns, hresult⟩ := exists_runs_parse source limit
  have hshallow' : outcome.IsShallow := by
    cases outcome with
    | done name after => trivial
    | failed error after => exact fun deep => hshallow error deep hresult
  rw [hresult]
  exact parse_eq_of_reaches hruns (hruns.reaches.congr rfl rfl) rfl hle
    (.inr hshallow')

/-- A higher limit does not change a result, unless that is the error that
the nesting is too deep; and such an error names the limit. -/
theorem parse_limit {source : TokenSource} {limit bound : Nat}
    (hle : limit ≤ bound) :
    ((∀ error deep, parse source limit = .error error →
        error.reason ≠ .nestingTooDeep deep) →
      parse source bound = parse source limit)
    ∧ ∀ error deep, parse source limit = .error error →
        error.reason = .nestingTooDeep deep → deep = limit :=
  ⟨parse_eq_of_limit_le hle, fun _ _ => deep_eq_of_error⟩

/-- A class without its last bracket has the same error under the limits 3
and 7, and under 2 the value that it returns is too deep. -/
theorem parse_limit_return :
    ∃ source, 3 ≤ 7 ∧ 2 ≤ 2
      ∧ (∃ error, parse source 3 = .error error
        ∧ error.reason = .expected [.closeCurly]
        ∧ parse source 7 = parse source 3)
      ∧ ∃ error deep, parse source 2 = .error error
        ∧ error.reason = .nestingTooDeep deep ∧ deep = 2 := by
  let words : List (Kind × String) := [(.kwClass, "class"),
    (.identifier, "A"), (.openCurly, "\x7b"), (.kwMethod, "method"),
    (.kwInt, "int"), (.identifier, "f"), (.openParen, "("),
    (.closeParen, ")"), (.openCurly, "\x7b"), (.kwReturn, "return"),
    (.number, "1"), (.semicolon, ";"), (.closeCurly, "\x7d")]
  let source : TokenSource := .ofTokens
    (words.map fun (kind, value) => ⟨kind, value, .start⟩)
  have hfails : (match parse source 3 with
      | .ok _ => false
      | .error error => error.reason == .expected [.closeCurly])
        = true := by decide +kernel
  have hdeep : (match parse source 2 with
      | .ok _ => false
      | .error error => error.reason == .nestingTooDeep 2)
        = true := by decide +kernel
  refine ⟨source, by decide, by decide, ?_, ?_⟩
  · split at hfails
    · cases hfails
    · rename_i error hparse
      have hreason := eq_of_beq hfails
      refine ⟨error, hparse, hreason, (parse_limit (by decide)).1 ?_⟩
      intro other deep hother heq
      rw [hparse] at hother
      cases hother
      rw [hreason] at heq
      cases heq
  · split at hdeep
    · cases hdeep
    · rename_i error hparse
      have hreason := eq_of_beq hdeep
      exact ⟨error, 2, hparse, hreason,
        (parse_limit (Nat.le_refl 2)).2 error 2 hparse hreason⟩

end JackSyntax
