/-
Why recognizers come to an end. A part of the grammar calls only parts
of lower rank before it has accepted a token, and after that there are
fewer tokens left. With three ranks, three calls for each token left and
the rank of the part beyond them are always enough (`isSome_visit`).
-/
import JackSyntax.Parse.Consumption
import JackSyntax.Parse.Forward

namespace JackSyntax

-- ================================================= running consumes

namespace Recognizer

variable {α : Type}

/-- A recognizer that consumes leaves less, if solid parts do. -/
theorem remaining_runWith_lt {visit : Visit}
    (hle : ∀ owner part parser outcome,
      visit owner part parser = some outcome →
      outcome.after.remaining ≤ parser.remaining)
    (hlt : ∀ owner part parser value after, part.isSolid = true →
      visit owner part parser = some (.done value after) →
      after.remaining < parser.remaining)
    {recognizer : Recognizer α} {parser after : Parser} {value : α}
    (hconsumes : recognizer.Consumes)
    (h : recognizer.runWith visit parser = some (.done value after)) :
    after.remaining < parser.remaining := by
  induction recognizer generalizing parser with
  | done value => cases hconsumes
  | look next ih => exact ih _ (hconsumes _) h
  | accept kinds next ih =>
    unfold runWith at h
    split at h
    · rename_i hacc
      have hafter := remaining_runWith_le hle h
      have := Parser.remaining_accept_lt hconsumes hacc
      exact Nat.lt_of_le_of_lt hafter this
    · cases h
  | refuse reason => cases h
  | note left next ih =>
    rw [runWith] at h
    have hlt := ih hconsumes h
    exact hlt
  | call owner part next ih =>
    unfold runWith at h
    split at h
    · cases h
    · rename_i hcall
      rcases hconsumes with hsolid | hnext
      · exact Nat.lt_of_le_of_lt (remaining_runWith_le hle h)
          (hlt _ _ _ _ _ hsolid hcall)
      · exact Nat.lt_of_lt_of_le (ih _ (hnext _) h)
          (hle _ _ _ _ hcall)
    · cases h

end Recognizer

/-- A solid part that succeeds leaves less. -/
theorem remaining_visit_lt {calls : Nat} {owner : String} {part : Part}
    {parser after : Parser} {value : part.Value}
    (hsolid : part.isSolid = true)
    (h : visit calls owner part parser = some (.done value after)) :
    after.remaining < parser.remaining := by
  induction calls generalizing owner part parser after with
  | zero => cases h
  | succ calls ih =>
    obtain ⟨error, after', hfail, -⟩ | ⟨entered, inside, hent, hin, hout, hdone⟩ :=
      Part.around_some h
    · cases hfail
    · obtain ⟨before, rfl⟩ := hdone value after rfl
      have hlt := Recognizer.remaining_runWith_lt
        (fun _ _ _ _ hcall => remaining_visit_le hcall)
        (fun _ _ _ _ _ hsolid hcall => ih hsolid hcall)
        (Recognizer.consumes_body owner part hsolid) hin
      simp only [Outcome.after] at hout
      omega

-- ================================================ enough calls

namespace Recognizer

variable {α : Type} {visit : Visit} (bound : Nat)

/-- With fewer tokens left than the bound, a recognizer has an answer if
each part has one there. -/
theorem isSome_runWith_of_lt
    (hle : ∀ owner part parser outcome,
      visit owner part parser = some outcome →
      outcome.after.remaining ≤ parser.remaining)
    (hvisit : ∀ owner part (parser : Parser), parser.remaining < bound →
      (visit owner part parser).isSome)
    (recognizer : Recognizer α) {parser : Parser}
    (hparser : parser.remaining < bound) :
    (recognizer.runWith visit parser).isSome := by
  induction recognizer generalizing parser with
  | done value => rfl
  | look next ih => exact ih _ hparser
  | accept kinds next ih =>
    have hacc := parser.remaining_accept_le kinds
    unfold runWith
    split
    · rename_i h
      rw [h] at hacc
      exact ih _ (Nat.lt_of_le_of_lt hacc hparser)
    · rfl
  | refuse reason => rfl
  | note left next ih =>
    rw [runWith]
    exact ih hparser
  | call owner part next ih =>
    have hsome := hvisit owner part parser hparser
    unfold runWith
    split
    · rename_i h
      rw [h] at hsome
      exact hsome
    · rename_i h
      exact ih _ (Nat.lt_of_le_of_lt (hle _ _ _ _ h) hparser)
    · rfl

/-- With as many tokens left as the bound, it is enough for a recognizer
that calls below a rank if the parts below that rank have an answer, and
all parts have one when fewer tokens are left. -/
theorem isSome_runWith_of_callsBelow
    (hle : ∀ owner part parser outcome,
      visit owner part parser = some outcome →
      outcome.after.remaining ≤ parser.remaining)
    (hlt : ∀ owner part parser value after, part.isSolid = true →
      visit owner part parser = some (.done value after) →
      after.remaining < parser.remaining)
    (hless : ∀ owner part (parser : Parser), parser.remaining < bound →
      (visit owner part parser).isSome)
    {rank : Nat}
    (hbelow : ∀ owner part (parser : Parser), parser.remaining ≤ bound →
      part.rank < rank → (visit owner part parser).isSome)
    {recognizer : Recognizer α} (hcalls : recognizer.CallsBelow rank)
    {parser : Parser} (hparser : parser.remaining ≤ bound) :
    (recognizer.runWith visit parser).isSome := by
  induction recognizer generalizing parser with
  | done value => rfl
  | look next ih => exact ih _ (hcalls _) hparser
  | accept kinds next ih =>
    unfold runWith
    split
    · rename_i hacc
      exact isSome_runWith_of_lt bound hle hless _
        (Nat.lt_of_lt_of_le (Parser.remaining_accept_lt hcalls hacc) hparser)
    · rfl
  | refuse reason => rfl
  | note left next ih =>
    rw [runWith]
    exact ih hcalls hparser
  | call owner part next ih =>
    have hsome := hbelow owner part parser hparser hcalls.1
    unfold runWith
    split
    · rename_i h
      rw [h] at hsome
      exact hsome
    · rename_i h
      rcases hcalls.2 with hsolid | hnext
      · exact isSome_runWith_of_lt bound hle hless _
          (Nat.lt_of_lt_of_le (hlt _ _ _ _ _ hsolid h) hparser)
      · exact ih _ (hnext _) (Nat.le_trans (hle _ _ _ _ h) hparser)
    · rfl

end Recognizer

/-- A rule has an answer if its inside has one. -/
theorem Part.isSome_around {α : Type}
    {inner : Parser → Option (Outcome α)} {part : Part} {parser : Parser}
    (h : ∀ entered : Parser, entered.remaining = parser.remaining →
      (inner entered).isSome) :
    (part.around inner parser).isSome := by
  cases part with
  | many item => exact h parser rfl
  | rule rule =>
    have hrem := parser.remaining_enter rule
    simp only [around]
    split
    · rfl
    · rename_i hent
      rw [hent] at hrem
      rw [Option.isSome_map]
      exact h _ hrem

/-- Three calls for each token left, the rank of the part and one more
are enough. -/
theorem isSome_visit {calls : Nat} (owner : String) (part : Part)
    (parser : Parser) (h : 3 * parser.remaining + part.rank < calls) :
    (visit calls owner part parser).isSome := by
  induction calls generalizing owner part parser with
  | zero => cases h
  | succ calls ih =>
    refine Part.isSome_around fun entered hent => ?_
    refine Recognizer.isSome_runWith_of_callsBelow parser.remaining
      (fun _ _ _ _ hcall => remaining_visit_le hcall)
      (fun _ _ _ _ _ hsolid hcall => remaining_visit_lt hsolid hcall)
      ?_ ?_
      (Recognizer.callsBelow_body owner part) (Nat.le_of_eq hent)
    · intro owner' part' parser' hless
      have := part'.rank_le
      exact ih _ _ _ (by omega)
    · intro owner' part' parser' hle hrank
      exact ih _ _ _ (by omega)

end JackSyntax
