/-
Running moves forward: no operation, no part and no recognizer raises
the number of tokens left, and accepting a token other than the end of
input lowers it.
-/
import JackSyntax.Parse.Visit

namespace JackSyntax

-- ======================================================= what is left

namespace Parser

@[simp] theorem remaining_note (parser : Parser) (left : Note) :
    (parser.note left).remaining = parser.remaining := rfl

theorem remaining_accept_le (parser : Parser) (kinds : List Kind) :
    (parser.accept kinds).after.remaining ≤ parser.remaining := by
  unfold accept
  split
  · exact parser.remaining_advance_le
  · exact Nat.le_refl _

theorem remaining_accept_lt {parser after : Parser} {kinds : List Kind}
    {token : Token} (heof : .eof ∉ kinds)
    (h : parser.accept kinds = .done token after) :
    after.remaining < parser.remaining := by
  unfold accept at h
  split at h
  · rename_i hpeek
    cases h
    refine parser.remaining_advance_lt fun hkind => heof ?_
    rwa [peekIsOneOf, List.contains_iff_mem, hkind] at hpeek
  · cases h

theorem remaining_enter (parser : Parser) (rule : Rule) :
    (parser.enter rule).after.remaining = parser.remaining := by
  unfold enter descend
  by_cases hrule : rule.isCounted = true <;>
    by_cases hdepth : parser.depth < parser.limit <;>
    simp only [hrule, hdepth, if_true, if_false, Bool.false_eq_true] <;>
    rfl

theorem remaining_exit (parser : Parser) (rule : Rule) :
    (parser.exit rule).remaining = parser.remaining := by
  unfold exit
  split <;> rfl

end Parser

-- ============================================== running moves forward

section Forward

variable {α : Type} {visit : Visit}

/-- If no part moves back then no recognizer does. -/
theorem Recognizer.remaining_runWith_le
    (hvisit : ∀ owner part parser outcome,
      visit owner part parser = some outcome →
      outcome.after.remaining ≤ parser.remaining)
    {recognizer : Recognizer α} {parser : Parser} {outcome : Outcome α}
    (h : recognizer.runWith visit parser = some outcome) :
    outcome.after.remaining ≤ parser.remaining := by
  induction recognizer generalizing parser with
  | done value =>
    cases h
    exact Nat.le_refl _
  | look next ih => exact ih _ h
  | accept kinds next ih =>
    have hle := parser.remaining_accept_le kinds
    unfold runWith at h
    split at h
    · rename_i hacc
      rw [hacc] at hle
      exact Nat.le_trans (ih _ h) hle
    · rename_i hacc
      rw [hacc] at hle
      cases h
      exact hle
  | refuse reason =>
    cases h
    exact Nat.le_refl _
  | note left next ih =>
    rw [runWith] at h
    have hle := ih h
    exact hle
  | call owner part next ih =>
    unfold runWith at h
    split at h
    · cases h
    · rename_i hcall
      exact Nat.le_trans (ih _ h) (hvisit _ _ _ _ hcall)
    · rename_i hcall
      cases h
      exact hvisit _ _ _ _ hcall

/-- What holds of the inside of a rule holds of all of it, as far as the
tokens left are concerned. -/
theorem Part.around_some {inner : Parser → Option (Outcome α)}
    {part : Part} {parser : Parser} {outcome : Outcome α}
    (h : part.around inner parser = some outcome) :
    (∃ error after, outcome = .failed error after
        ∧ after.remaining = parser.remaining)
      ∨ ∃ entered inside, entered.remaining = parser.remaining
        ∧ inner entered = some inside
        ∧ inside.after.remaining = outcome.after.remaining
        ∧ ∀ value after, outcome = .done value after →
          ∃ before, inside = .done value before := by
  cases part with
  | many item =>
    exact .inr ⟨parser, outcome, rfl, h, rfl, fun value after ho => ⟨after, ho⟩⟩
  | rule rule =>
    have hrem := parser.remaining_enter rule
    simp only [around] at h
    split at h
    · rename_i error after hent
      rw [hent] at hrem
      cases h
      exact .inl ⟨error, after, rfl, hrem⟩
    · rename_i entered hent
      rw [hent] at hrem
      obtain ⟨inside, hin, rfl⟩ := Option.map_eq_some_iff.1 h
      refine .inr ⟨entered, inside, hrem, hin, ?_, ?_⟩
      · cases inside with
        | done value before =>
          exact (Parser.remaining_exit before rule).symm
        | failed error before => rfl
      · intro value after ho
        cases inside with
        | done value' before =>
          cases ho
          exact ⟨before, rfl⟩
        | failed error before => cases ho

end Forward

/-- No part moves back. -/
theorem remaining_visit_le {calls : Nat} {owner : String} {part : Part}
    {parser : Parser} {outcome : Outcome part.Value}
    (h : visit calls owner part parser = some outcome) :
    outcome.after.remaining ≤ parser.remaining := by
  induction calls generalizing owner part parser outcome with
  | zero => cases h
  | succ calls ih =>
    obtain ⟨error, after, rfl, hrem⟩ | ⟨entered, inside, hent, hin, hout, -⟩ :=
      Part.around_some h
    · exact Nat.le_of_eq hrem
    · have := Recognizer.remaining_runWith_le
        (fun _ _ _ _ hcall => ih hcall) hin
      omega

end JackSyntax
