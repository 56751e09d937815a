/-
Running recognizers to the end. `Parser.run` has an answer for every
recognizer and every parser; how many calls it allows is an internal
matter, for a run that has an answer keeps it under any higher count
(`runWith_visit_mono`).

Its equations say what each step of a recognizer does to the parser. A
proof about runs uses these and never looks at the count again.
-/
import JackSyntax.Parse.Progress

namespace JackSyntax

variable {α β : Type}

-- ================================================= more calls, same answer

/-- More parts with answers do not change the answers there are. -/
theorem Recognizer.runWith_mono {first second : Visit}
    (h : ∀ owner part parser outcome,
      first owner part parser = some outcome →
      second owner part parser = some outcome)
    {recognizer : Recognizer α} {parser : Parser} {outcome : Outcome α}
    (hrun : recognizer.runWith first parser = some outcome) :
    recognizer.runWith second parser = some outcome := by
  induction recognizer generalizing parser with
  | done value => exact hrun
  | look next ih => exact ih _ hrun
  | accept kinds next ih =>
    unfold runWith at hrun ⊢
    split at hrun
    · exact ih _ hrun
    · exact hrun
  | refuse reason => exact hrun
  | note left next ih =>
    rw [runWith] at hrun ⊢
    exact ih hrun
  | call owner part next ih =>
    unfold runWith at hrun ⊢
    split at hrun
    · cases hrun
    · rename_i hcall
      rw [h _ _ _ _ hcall]
      exact ih _ hrun
    · rename_i hcall
      rw [h _ _ _ _ hcall]
      exact hrun

/-- The same for the inside of a part. -/
theorem Part.around_mono {first second : Parser → Option (Outcome α)}
    (h : ∀ parser outcome, first parser = some outcome →
      second parser = some outcome)
    {part : Part} {parser : Parser} {outcome : Outcome α}
    (hrun : part.around first parser = some outcome) :
    part.around second parser = some outcome := by
  cases part with
  | many item => exact h _ _ hrun
  | rule rule =>
    simp only [around] at hrun ⊢
    split at hrun
    · exact hrun
    · obtain ⟨inside, hin, rfl⟩ := Option.map_eq_some_iff.1 hrun
      rw [h _ _ hin]
      rfl

/-- An answer does not depend on how many calls were allowed. -/
theorem visit_mono {calls more : Nat} (hmore : calls ≤ more)
    {owner : String} {part : Part} {parser : Parser}
    {outcome : Outcome part.Value}
    (h : visit calls owner part parser = some outcome) :
    visit more owner part parser = some outcome := by
  induction calls generalizing more owner part parser with
  | zero => cases h
  | succ calls ih =>
    obtain ⟨more, rfl⟩ : ∃ n, more = n + 1 := ⟨more - 1, by omega⟩
    refine Part.around_mono (fun _ _ hin => ?_) h
    exact Recognizer.runWith_mono
      (fun _ _ _ _ hcall => ih (by omega) hcall) hin

/-- One program and then another, as far as there are answers. -/
theorem Recognizer.runWith_bind {visit : Visit} (first : Recognizer α)
    (next : α → Recognizer β) (parser : Parser) :
    (first.bind next).runWith visit parser
      = (first.runWith visit parser).bind fun outcome =>
          match outcome with
          | .done value after => (next value).runWith visit after
          | .failed error after => some (.failed error after) := by
  induction first generalizing parser with
  | done value => rfl
  | look choose ih => exact ih _ parser
  | accept kinds rest ih =>
    rw [bind, runWith, runWith]
    cases parser.accept kinds with
    | done token after => exact ih token after
    | failed error after => rfl
  | refuse reason => rfl
  | note left rest ih => exact ih (parser.note left)
  | call owner part rest ih =>
    rw [bind, runWith, runWith]
    rcases visit owner part parser with _ | ⟨value, after⟩ | ⟨error, after⟩
    · rfl
    · exact ih value after
    · rfl

/-- A part by itself is what the parts are run with. -/
theorem Recognizer.runWith_part {visit : Visit} (owner : String)
    (part : Part) (parser : Parser) :
    (Recognizer.part owner part).runWith visit parser
      = visit owner part parser := by
  rw [Recognizer.part, runWith]
  rcases visit owner part parser with _ | ⟨value, after⟩ | ⟨error, after⟩ <;>
    rfl

theorem runWith_visit_mono {calls more : Nat} (hmore : calls ≤ more)
    {recognizer : Recognizer α} {parser : Parser} {outcome : Outcome α}
    (h : recognizer.runWith (visit calls) parser = some outcome) :
    recognizer.runWith (visit more) parser = some outcome :=
  Recognizer.runWith_mono (fun _ _ _ _ => visit_mono hmore) h

-- ==================================================== running to the end

namespace Parser

/-- As many calls as a recognizer can need from here. -/
def callBound (parser : Parser) : Nat := 3 * parser.remaining + 3

theorem isSome_runWith_callBound (parser : Parser)
    (recognizer : Recognizer α) :
    (recognizer.runWith (visit parser.callBound) parser).isSome := by
  refine Recognizer.isSome_runWith_of_lt (parser.remaining + 1)
    (fun _ _ _ _ hcall => remaining_visit_le hcall) ?_ recognizer
    (Nat.lt_succ_self _)
  intro owner part parser' hlt
  have := part.rank_le
  exact isSome_visit owner part parser' (by unfold callBound; omega)

/-- Runs a recognizer from a parser. -/
def run (parser : Parser) (recognizer : Recognizer α) : Outcome α :=
  (recognizer.runWith (visit parser.callBound) parser).get
    (parser.isSome_runWith_callBound recognizer)

/-- What comes out under any count of calls is the answer. -/
theorem run_eq_of_runWith {n : Nat} {recognizer : Recognizer α}
    {parser : Parser} {outcome : Outcome α}
    (h : recognizer.runWith (visit n) parser = some outcome) :
    parser.run recognizer = outcome := by
  have hsome := parser.isSome_runWith_callBound recognizer
  obtain ⟨answer, hanswer⟩ := Option.isSome_iff_exists.1 hsome
  have hrun : parser.run recognizer = answer := by
    simp only [run, hanswer, Option.get_some]
  rw [hrun]
  have h₁ := runWith_visit_mono (Nat.le_max_left n parser.callBound) h
  have h₂ := runWith_visit_mono (Nat.le_max_right n parser.callBound) hanswer
  exact Option.some.inj (h₂.symm.trans h₁)

/-- The answer comes out under any count of calls that is high enough. -/
theorem runWith_callBound (parser : Parser) (recognizer : Recognizer α) :
    recognizer.runWith (visit parser.callBound) parser
      = some (parser.run recognizer) :=
  (Option.some_get _).symm

-- ================================================== what each step does

@[simp] theorem run_done (parser : Parser) (value : α) :
    parser.run (.done value) = .done value parser := rfl

@[simp] theorem run_look (parser : Parser) (next : Kind → Recognizer α) :
    parser.run (.look next) = parser.run (next parser.lookahead.kind) :=
  rfl

@[simp] theorem run_refuse (parser : Parser) (reason : Reason) :
    parser.run (.refuse reason : Recognizer α) = parser.reject reason :=
  rfl

@[simp] theorem run_note (parser : Parser) (left : Note)
    (next : Recognizer α) :
    parser.run (.note left next) = (parser.note left).run next := rfl

@[simp] theorem run_accept (parser : Parser) (kinds : List Kind)
    (next : Token → Recognizer α) :
    parser.run (.accept kinds next)
      = (parser.accept kinds).andThen fun token after =>
          after.run (next token) := by
  cases hacc : parser.accept kinds with
  | done token after =>
    have h := after.runWith_callBound (next token)
    refine run_eq_of_runWith (n := after.callBound) ?_
    rw [Recognizer.runWith, hacc]
    exact h
  | failed error after =>
    refine run_eq_of_runWith (n := 0) ?_
    rw [Recognizer.runWith, hacc]
    rfl

/-- One recognizer and then another is one run and then another. -/
theorem run_bind (parser : Parser) (first : Recognizer α)
    (next : α → Recognizer β) :
    parser.run (first.bind next)
      = (parser.run first).andThen fun value after =>
          after.run (next value) := by
  have hfirst := parser.runWith_callBound first
  cases hrun : parser.run first with
  | done value after =>
    rw [hrun] at hfirst
    have hnext := after.runWith_callBound (next value)
    refine run_eq_of_runWith (n := max parser.callBound after.callBound) ?_
    rw [Recognizer.runWith_bind,
      runWith_visit_mono (Nat.le_max_left _ _) hfirst]
    exact runWith_visit_mono (Nat.le_max_right _ _) hnext
  | failed error after =>
    rw [hrun] at hfirst
    refine run_eq_of_runWith (n := parser.callBound) ?_
    rw [Recognizer.runWith_bind, hfirst]
    rfl

@[simp] theorem run_call (parser : Parser) (owner : String) (part : Part)
    (next : part.Value → Recognizer α) :
    parser.run (.call owner part next)
      = (parser.run (.part owner part)).andThen fun value after =>
          after.run (next value) :=
  parser.run_bind (.part owner part) next

/-- A repetition is its body. -/
theorem run_many (parser : Parser) (owner : String) (item : Item) :
    parser.run (.many owner item)
      = parser.run (.repetition owner item) := by
  refine run_eq_of_runWith (n := parser.callBound + 1) ?_
  rw [Recognizer.many, Recognizer.runWith_part]
  exact parser.runWith_callBound (.repetition owner item)

/-- A rule is opened, then its body is run, then it is closed. -/
theorem run_rule (parser : Parser) (owner : String) (rule : Rule) :
    parser.run (.rule owner rule)
      = (parser.enter rule).andThen fun _ entered =>
          (entered.run (.body owner (.rule rule))).andThen
            fun value after => .done value (after.exit rule) := by
  cases hent : parser.enter rule with
  | failed error after =>
    refine run_eq_of_runWith (n := 1) ?_
    rw [Recognizer.rule, Recognizer.runWith_part]
    simp only [visit, Part.around, hent]
    rfl
  | done value entered =>
    refine run_eq_of_runWith (n := entered.callBound + 1) ?_
    rw [Recognizer.rule, Recognizer.runWith_part]
    simp only [visit, Part.around, hent, runWith_callBound, Option.map_some]
    rfl

end Parser

end JackSyntax
