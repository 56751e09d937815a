/-
What running a recognizer comes to, and the tokens that it accepts on
the way, as a relation without a count of calls. `Recognizer.Runs` has
one constructor for each way in which a step can go, so a fact about all
runs is proved by one case for each of them, and the cases for a part
come with the fact for its body.

`runs_run` says that the run of every recognizer from every parser is
among the runs of the relation, and `Runs.run_eq` that it is the only
one. Nothing about runs is proved by counting calls after this.
-/
import JackSyntax.Parse.Run

namespace JackSyntax

-- ===================================================== the two ends

namespace Parser

/-- What comes before the body of a part: a rule is entered, a
repetition has nothing before it. -/
def openPart (parser : Parser) : Part → Outcome Unit
  | .rule rule => parser.enter rule
  | .many _ => .done () parser

/-- What comes after the body of a part. -/
def closePart (parser : Parser) : Part → Parser
  | .rule rule => parser.exit rule
  | .many _ => parser

end Parser

/-- A part is its two ends around its inside. -/
theorem Part.around_eq {α : Type} (inner : Parser → Option (Outcome α))
    (part : Part) (parser : Parser) :
    part.around inner parser
      = match parser.openPart part with
        | .failed error after => some (.failed error after)
        | .done _ entered => (inner entered).map (·.andThen
            fun value after => .done value (after.closePart part)) := by
  cases part with
  | rule entered => rfl
  | many item =>
    show inner parser = (inner parser).map _
    rcases inner parser with _ | ⟨value, after⟩ | ⟨error, after⟩ <;> rfl

-- ====================================================== the relation

namespace Recognizer

/-- From the parser the recognizer accepts the tokens and comes to the
outcome. -/
inductive Runs :
    {α : Type} → Recognizer α → Parser → List Token → Outcome α → Prop
  | done {α : Type} (value : α) (parser : Parser) :
    Runs (.done value) parser [] (.done value parser)
  /-- The kind of the next token chooses how to go on. -/
  | look {α : Type} {next : Kind → Recognizer α} {parser : Parser}
    {tokens : List Token} {outcome : Outcome α}
    (h : Runs (next parser.lookahead.kind) parser tokens outcome) :
    Runs (.look next) parser tokens outcome
  /-- The next token is accepted. -/
  | accept {α : Type} {kinds : List Kind} {next : Token → Recognizer α}
    {parser : Parser} {tokens : List Token} {outcome : Outcome α}
    (hkind : parser.lookahead.kind ∈ kinds)
    (h : Runs (next parser.lookahead)
      (parser.advance.mark (.terminal parser.lookahead)) tokens outcome) :
    Runs (.accept kinds next) parser (parser.lookahead :: tokens) outcome
  /-- The next token is not accepted. -/
  | reject {α : Type} {kinds : List Kind} {next : Token → Recognizer α}
    {parser : Parser} (hkind : parser.lookahead.kind ∉ kinds) :
    Runs (.accept kinds next) parser []
      (parser.reject (.expected kinds))
  | refuse {α : Type} (reason : Reason) (parser : Parser) :
    Runs (.refuse reason : Recognizer α) parser []
      (parser.reject reason)
  | note {α : Type} {left : Note} {next : Recognizer α} {parser : Parser}
    {tokens : List Token} {outcome : Outcome α}
    (h : Runs next (parser.note left) tokens outcome) :
    Runs (.note left next) parser tokens outcome
  /-- A part cannot be opened. -/
  | shut {α : Type} {owner : String} {part : Part}
    {next : part.Value → Recognizer α} {parser after : Parser}
    {error : SyntaxError}
    (hopen : parser.openPart part = .failed error after) :
    Runs (.call owner part next) parser [] (.failed error after)
  /-- A part fails inside. -/
  | stuck {α : Type} {owner : String} {part : Part}
    {next : part.Value → Recognizer α} {parser entered after : Parser}
    {tokens : List Token} {error : SyntaxError}
    (hopen : parser.openPart part = .done () entered)
    (hbody : Runs (body owner part) entered tokens
      (.failed error after)) :
    Runs (.call owner part next) parser tokens (.failed error after)
  /-- A part succeeds, and what comes after it decides. -/
  | through {α : Type} {owner : String} {part : Part}
    {next : part.Value → Recognizer α} {parser entered inside : Parser}
    {front back : List Token} {value : part.Value} {outcome : Outcome α}
    (hopen : parser.openPart part = .done () entered)
    (hbody : Runs (body owner part) entered front (.done value inside))
    (hnext : Runs (next value) (inside.closePart part) back outcome) :
    Runs (.call owner part next) parser (front ++ back) outcome

variable {α β : Type}

/-- A part that fails ends the recognizer that calls it. -/
theorem Runs.call_failed {owner : String} {part : Part}
    {next : part.Value → Recognizer α} {parser after : Parser}
    {tokens : List Token} {error : SyntaxError}
    (h : Runs (.part owner part) parser tokens (.failed error after)) :
    Runs (.call owner part next) parser tokens (.failed error after) := by
  cases h with
  | shut hopen => exact .shut hopen
  | stuck hopen hbody => exact .stuck hopen hbody
  | through hopen hbody hnext => cases hnext

/-- A part that succeeds hands over to what comes after it. -/
theorem Runs.call_done {owner : String} {part : Part}
    {next : part.Value → Recognizer α} {parser after : Parser}
    {front back : List Token} {value : part.Value} {outcome : Outcome α}
    (h : Runs (.part owner part) parser front (.done value after))
    (hnext : Runs (next value) after back outcome) :
    Runs (.call owner part next) parser (front ++ back) outcome := by
  cases h with
  | through hopen hbody hdone =>
    cases hdone
    rw [List.append_nil]
    exact .through hopen hbody hnext

-- ============================================= the interpreter is in it

/-- If what parts come to is related, so is what recognizers come to. -/
theorem runs_of_runWith {visit : Visit}
    (hvisit : ∀ owner part parser outcome,
      visit owner part parser = some outcome →
      ∃ tokens, (Recognizer.part owner part).Runs parser tokens outcome)
    {recognizer : Recognizer α} {parser : Parser} {outcome : Outcome α}
    (h : recognizer.runWith visit parser = some outcome) :
    ∃ tokens, recognizer.Runs parser tokens outcome := by
  induction recognizer generalizing parser with
  | done value =>
    cases h
    exact ⟨[], .done value parser⟩
  | look next ih =>
    obtain ⟨tokens, hnext⟩ := ih _ h
    exact ⟨tokens, .look hnext⟩
  | accept kinds next ih =>
    by_cases hkind : parser.lookahead.kind ∈ kinds
    · simp only [runWith, Parser.accept, Parser.peekIsOneOf,
        List.contains_iff_mem, hkind, if_true] at h
      obtain ⟨tokens, hnext⟩ := ih _ h
      exact ⟨_, .accept hkind hnext⟩
    · simp only [runWith, Parser.accept, Parser.peekIsOneOf,
        List.contains_iff_mem, hkind, if_false, Parser.reject] at h
      cases h
      exact ⟨[], .reject hkind⟩
  | refuse reason =>
    cases h
    exact ⟨[], .refuse reason parser⟩
  | note left next ih =>
    rw [runWith] at h
    obtain ⟨tokens, hnext⟩ := ih h
    exact ⟨tokens, .note hnext⟩
  | call owner part next ih =>
    unfold runWith at h
    split at h
    · cases h
    · rename_i hcall
      obtain ⟨front, hfront⟩ := hvisit _ _ _ _ hcall
      obtain ⟨back, hback⟩ := ih _ h
      exact ⟨front ++ back, .call_done hfront hback⟩
    · rename_i hcall
      cases h
      obtain ⟨tokens, hpart⟩ := hvisit _ _ _ _ hcall
      exact ⟨tokens, .call_failed hpart⟩

/-- What a part comes to under any count of calls is related. -/
theorem runs_of_visit {calls : Nat} {owner : String} {part : Part}
    {parser : Parser} {outcome : Outcome part.Value}
    (h : visit calls owner part parser = some outcome) :
    ∃ tokens, (Recognizer.part owner part).Runs parser tokens outcome := by
  induction calls generalizing owner part parser with
  | zero => cases h
  | succ calls ih =>
    rw [visit, Part.around_eq] at h
    split at h
    · rename_i hopen
      cases h
      exact ⟨[], .shut hopen⟩
    · rename_i entered hopen
      obtain ⟨inside, hin, rfl⟩ := Option.map_eq_some_iff.1 h
      obtain ⟨tokens, hbody⟩ :=
        runs_of_runWith (fun _ _ _ _ hcall => ih hcall) hin
      cases inside with
      | done value before => exact ⟨_, .through hopen hbody (.done _ _)⟩
      | failed error before => exact ⟨tokens, .stuck hopen hbody⟩

/-- The run of a recognizer is among its runs. -/
theorem runs_run (recognizer : Recognizer α) (parser : Parser) :
    ∃ tokens, recognizer.Runs parser tokens (parser.run recognizer) :=
  runs_of_runWith (fun _ _ _ _ hcall => runs_of_visit hcall)
    (parser.runWith_callBound recognizer)

end Recognizer

-- ======================================== there is one run from a parser

namespace Parser

/-- A part is opened, then its body is run, then it is closed. -/
theorem run_part (parser : Parser) (owner : String) (part : Part) :
    parser.run (.part owner part)
      = (parser.openPart part).andThen fun _ entered =>
          (entered.run (.body owner part)).andThen
            fun value after => .done value (after.closePart part) := by
  cases part with
  | rule entered => exact parser.run_rule owner entered
  | many item =>
    show parser.run (.many owner item) = Outcome.andThen (parser.run _) _
    rw [parser.run_many]
    show parser.run (.repetition owner item)
      = (parser.run (.repetition owner item)).andThen .done
    rcases parser.run (.repetition owner item) with
      ⟨value, after⟩ | ⟨error, after⟩ <;> rfl

end Parser

/-- A recognizer comes to nothing else than its run. -/
theorem Recognizer.Runs.run_eq {α : Type} {recognizer : Recognizer α}
    {parser : Parser} {tokens : List Token} {outcome : Outcome α}
    (h : recognizer.Runs parser tokens outcome) :
    parser.run recognizer = outcome := by
  induction h with
  | done value parser => rfl
  | look _ ih => exact ih
  | accept hkind _ ih =>
    rw [Parser.run_accept, Parser.accept, Parser.peekIsOneOf,
      List.contains_iff_mem.2 hkind, if_pos rfl]
    exact ih
  | reject hkind =>
    rw [Parser.run_accept, Parser.accept, Parser.peekIsOneOf,
      if_neg (by rwa [List.contains_iff_mem])]
    rfl
  | refuse reason parser => rfl
  | note _ ih => exact ih
  | shut hopen =>
    rw [Parser.run_call, Parser.run_part, hopen]
    rfl
  | stuck hopen _ ih =>
    rw [Parser.run_call, Parser.run_part, hopen, Outcome.andThen, ih]
    rfl
  | through hopen _ _ ihBody ihNext =>
    rw [Parser.run_call, Parser.run_part, hopen, Outcome.andThen, ihBody]
    exact ihNext

end JackSyntax
