/-
How deep a run can be. A run only ever adds entries at the end of its
trace, so the moments of a run are the beginnings of the trace that it
leaves, and the rules that are open at a moment can be read off it
(`openAfter`).

At every moment of the parsing of a class, whether it succeeds or not,
at most as many counted rules are open as the limit says, and with all
others at most twice as many and four (`open_le_of_moment`). The first
is the check at the opening of a counted rule. The second is a matter of
the call graph: every part has a margin of rules that are open beyond two
for each counted one (`Part.margin`), which no call exceeds.
-/
import JackSyntax.Proofs.Parse.Acts
import JackSyntax.Proofs.Parse.Soundness

namespace JackSyntax

variable {α : Type}

-- ========================================================== open rules

/-- With the given rules open, innermost first, those that are open after
the entries; none at all if an exit is not that of the innermost open
rule. -/
def openAfter : (opened : List Rule) → List Entry → Option (List Rule)
  | opened, [] => some opened
  | opened, .enter rule :: entries => openAfter (rule :: opened) entries
  | [], .exit _ :: _ => none
  | rule :: opened, .exit rule' :: entries =>
    if rule = rule' then openAfter opened entries else none
  | opened, .terminal _ :: entries => openAfter opened entries

/-- One list of entries and then another. -/
theorem openAfter_append {opened now : List Rule}
    {front : List Entry} (h : openAfter opened front = some now)
    (back : List Entry) :
    openAfter opened (front ++ back) = openAfter now back := by
  induction front generalizing opened with
  | nil =>
    cases h
    rfl
  | cons entry front ih =>
    cases entry with
    | enter rule => exact ih h
    | terminal token => exact ih h
    | exit rule =>
      cases opened with
      | nil => cases h
      | cons innermost opened =>
        simp only [List.cons_append, openAfter] at h ⊢
        split at h
        · rename_i heq
          rw [if_pos heq]
          exact ih h
        · cases h

/-- A rule is open as often as it was opened and not closed. -/
theorem count_of_openAfter {opened now : List Rule} {entries : List Entry}
    (h : openAfter opened entries = some now) (rule : Rule) :
    opened.count rule + entries.count (.enter rule)
      = now.count rule + entries.count (.exit rule) := by
  induction entries generalizing opened with
  | nil =>
    cases h
    rfl
  | cons entry entries ih =>
    cases entry with
    | enter inner =>
      have hrest := ih h
      simp only [List.count_cons, beq_iff_eq, Entry.enter.injEq,
        reduceCtorEq, if_false] at hrest ⊢
      omega
    | terminal token =>
      have hrest := ih h
      simp only [List.count_cons, beq_iff_eq, reduceCtorEq,
        if_false] at hrest ⊢
      omega
    | exit inner =>
      cases opened with
      | nil => cases h
      | cons innermost opened =>
        simp only [openAfter] at h
        split at h
        · rename_i heq
          have hrest := ih h
          simp only [List.count_cons, beq_iff_eq, Entry.exit.injEq,
            reduceCtorEq, if_false, heq] at hrest ⊢
          omega
        · cases h

/-- A forest closes all that it opens. -/
theorem openAfter_entries (forest : Forest) (opened : List Rule) :
    openAfter opened forest.entries = some opened := by
  induction forest generalizing opened with
  | nil => rfl
  | leaf token rest ih => exact ih opened
  | node rule inside rest ihInside ihRest =>
    rw [Forest.entries, openAfter, openAfter_append (ihInside _),
      openAfter, if_pos rfl]
    exact ihRest opened

-- ========================================================== the bounds

/-- No more rules are open than a limit allows. -/
structure Bounded (limit : Nat) (opened : List Rule) : Prop where
  counted : opened.countP Rule.isCounted ≤ limit
  all : opened.length ≤ 2 * limit + 4

/-- From the given open rules on, the bounds are kept at every moment. -/
def StaysBounded (limit : Nat) (opened : List Rule)
    (entries : List Entry) : Prop :=
  ∀ moment, moment <+: entries →
    ∃ now, openAfter opened moment = some now ∧ Bounded limit now

namespace StaysBounded

variable {limit : Nat} {opened now : List Rule}

theorem nil (h : Bounded limit opened) : StaysBounded limit opened [] := by
  intro moment hmoment
  obtain rfl := List.prefix_nil.1 hmoment
  exact ⟨opened, rfl, h⟩

theorem append {front back : List Entry}
    (hfront : StaysBounded limit opened front)
    (hopen : openAfter opened front = some now)
    (hback : StaysBounded limit now back) :
    StaysBounded limit opened (front ++ back) := by
  rintro moment ⟨tail, htail⟩
  rcases List.append_eq_append_iff.1 htail with
    ⟨left, hleft, -⟩ | ⟨begun, rfl, hbegun⟩
  · exact hfront moment ⟨left, hleft.symm⟩
  · rw [openAfter_append hopen]
    exact hback begun ⟨tail, hbegun.symm⟩

/-- The first moment is the one before all entries. -/
theorem bounded {entries : List Entry}
    (h : StaysBounded limit opened entries) : Bounded limit opened := by
  obtain ⟨now, hnow, hbounded⟩ := h [] List.nil_prefix
  cases hnow
  exact hbounded

/-- One entry. -/
theorem single {entry : Entry} (hbefore : Bounded limit opened)
    (hopen : openAfter opened [entry] = some now)
    (hafter : Bounded limit now) :
    StaysBounded limit opened [entry] := by
  intro moment hmoment
  rcases List.prefix_cons_iff.1 hmoment with rfl | ⟨rest, rfl, hrest⟩
  · exact ⟨opened, rfl, hbefore⟩
  · obtain rfl := List.prefix_nil.1 hrest
    exact ⟨now, hopen, hafter⟩

end StaysBounded

-- ========================================================= the margins

namespace Part

/-- The rule that a part opens, if it is one. -/
def opens : Part → List Rule
  | .rule named => [named]
  | .many _ => []

/-- How many rules may be open in the body of a part beyond two for each
counted one. -/
def margin : Part → Nat
  | .rule .classDec | .many .classVarDec | .many .subroutineDec => 1
  | .rule .classVarDec | .rule .subroutineDec | .rule .statements
  | .rule .term | .many .statement => 2
  | .rule .varDec | .rule .expressionList | .many .name
  | .many .expression => 4
  | _ => 3

theorem margin_le (part : Part) : part.margin ≤ 4 := by
  unfold margin
  split <;> decide

/-- With a margin for what is open already, a part keeps within its
own. -/
def FitsIn (part : Part) (margin : Nat) : Prop :=
  margin + part.opens.length
    ≤ 2 * part.opens.countP Rule.isCounted + part.margin

instance (part : Part) (margin : Nat) : Decidable (part.FitsIn margin) :=
  inferInstanceAs (Decidable (_ ≤ _))

/-- The calls of a part keep within the margins. Every way in which the
grammar comes back to itself has a counted rule on it, and these make up
for the others. -/
theorem fitsIn_of_mem_callees {part callee : Part}
    (h : callee ∈ part.callees) : callee.FitsIn part.margin := by
  revert callee
  cases part with
  | rule named => cases named <;> decide
  | many repeated => cases repeated <;> decide

end Part

namespace Recognizer

/-- Acts that keep within a margin. -/
def KeepsWithin (margin : Nat) : Act → Prop
  | .call _ callee => callee.FitsIn margin
  | _ => True

theorem uses_keepsWithin (owner : String) (part : Part) :
    (body owner part).Uses (KeepsWithin part.margin) := by
  refine (uses_body owner part).mono fun act hact => ?_
  cases act with
  | call name callee => exact Part.fitsIn_of_mem_callees hact.1
  | refuse reason => trivial
  | note left => trivial

end Recognizer

-- ======================================================= along a run

namespace Parser

/-- The parser is in the given open rules: it has counted them right, and
there are no more of them than the limit and the margin allow. -/
structure Within (parser : Parser) (opened : List Rule)
    (margin : Nat) : Prop where
  depth : opened.countP Rule.isCounted = parser.depth
  limit : parser.depth ≤ parser.limit
  length : opened.length ≤ 2 * parser.depth + margin

theorem Within.bounded {parser : Parser} {opened : List Rule}
    {margin : Nat} (h : parser.Within opened margin)
    (hmargin : margin ≤ 4) : Bounded parser.limit opened where
  counted := h.depth ▸ h.limit
  all := by
    have hlimit := h.limit
    have hlength := h.length
    omega

/-- What has been passed over is closed again. -/
theorem Within.of_passes {parser after : Parser} {opened : List Rule}
    {margin : Nat} {forest : Forest} {notes : List Note}
    (h : parser.Within opened margin)
    (hpasses : parser.Passes forest notes after) :
    after.Within opened margin where
  depth := h.depth.trans hpasses.depth.symm
  limit := by
    rw [hpasses.depth, hpasses.limit]
    exact h.limit
  length := by
    rw [hpasses.depth]
    exact h.length

/-- A part that is opened adds its rule to those that are open. -/
theorem within_openPart {parser entered : Parser} {part : Part}
    {opened : List Rule} {margin : Nat}
    (hopen : parser.openPart part = .done () entered)
    (h : parser.Within opened margin) (hfits : part.FitsIn margin) :
    entered.trace.toList = parser.trace.toList ++ part.opens.map .enter
      ∧ entered.limit = parser.limit
      ∧ entered.Within (part.opens ++ opened) part.margin := by
  have hfits' : margin + part.opens.length
    ≤ 2 * part.opens.countP Rule.isCounted + part.margin := hfits
  have hlength := h.length
  cases part with
  | many item =>
    cases hopen
    refine ⟨(List.append_nil _).symm, rfl, h.depth, h.limit, ?_⟩
    simp only [Part.opens, List.length_nil, List.countP_nil] at hfits'
    simp only [Part.opens, List.nil_append]
    omega
  | rule named =>
    obtain ⟨hlt, rfl⟩ := enter_done hopen
    have hlimit := h.limit
    have hdepth := h.depth
    simp only [Part.opens, List.length_singleton,
      List.countP_singleton] at hfits'
    refine ⟨Trace.toList_push .., rfl, ?_, ?_, ?_⟩
    · simp only [Part.opens, List.singleton_append, List.countP_cons,
        hdepth]
    · simp only
      split
      · exact hlt ‹_›
      · exact hlimit
    · simp only [Part.opens, List.singleton_append, List.length_cons]
      omega

end Parser

/-- The entry of a part. -/
theorem StaysBounded.enter {limit : Nat} {opened : List Rule}
    {part : Part} (hbefore : Bounded limit opened)
    (hafter : Bounded limit (part.opens ++ opened)) :
    StaysBounded limit opened (part.opens.map .enter) := by
  cases part with
  | many item => exact .nil hbefore
  | rule named => exact .single hbefore rfl hafter

theorem openAfter_enter (part : Part) (opened : List Rule) :
    openAfter opened (part.opens.map .enter)
      = some (part.opens ++ opened) := by
  cases part <;> rfl

/-- A part that is complete, around its inside. -/
theorem StaysBounded.wrap {limit : Nat} {opened : List Rule}
    {part : Part} {inside : Forest} (hbefore : Bounded limit opened)
    (h : StaysBounded limit (part.opens ++ opened) inside.entries) :
    StaysBounded limit opened (part.wrap inside).entries := by
  cases part with
  | many item => exact h
  | rule named =>
    have henter : StaysBounded limit opened [.enter named] :=
      .single hbefore rfl h.bounded
    have hexit : StaysBounded limit (named :: opened) [.exit named] :=
      .single h.bounded (if_pos rfl) hbefore
    exact henter.append rfl (h.append (openAfter_entries inside _) hexit)

/-- A run from within the bounds keeps within them, and does nothing to
its trace but add to it. -/
theorem Recognizer.Runs.staysBounded {recognizer : Recognizer α}
    {parser : Parser} {tokens : List Token} {outcome : Outcome α}
    (h : recognizer.Runs parser tokens outcome) {margin : Nat}
    (huses : recognizer.Uses (KeepsWithin margin)) (hmargin : margin ≤ 4)
    {opened : List Rule} (hwithin : parser.Within opened margin) :
    ∃ added, outcome.after.trace.toList = parser.trace.toList ++ added
      ∧ StaysBounded parser.limit opened added := by
  induction h generalizing margin opened with
  | done value parser =>
    exact ⟨[], (List.append_nil _).symm, .nil (hwithin.bounded hmargin)⟩
  | look _ ih => exact ih (huses _) hmargin hwithin
  | @accept _ _ _ parser _ _ _ _ ih =>
    have hbounded := hwithin.bounded hmargin
    obtain ⟨added, htrace, hadded⟩ := ih (huses _) hmargin
      ⟨hwithin.depth, hwithin.limit, hwithin.length⟩
    refine ⟨.terminal parser.lookahead :: added, ?_,
      .append (.single hbounded rfl hbounded) rfl hadded⟩
    rw [htrace, Parser.mark, Trace.toList_push, List.append_assoc]
    rfl
  | reject _ =>
    exact ⟨[], (List.append_nil _).symm, .nil (hwithin.bounded hmargin)⟩
  | refuse reason parser =>
    exact ⟨[], (List.append_nil _).symm, .nil (hwithin.bounded hmargin)⟩
  | note _ ih =>
    exact ih huses.2 hmargin
      ⟨hwithin.depth, hwithin.limit, hwithin.length⟩
  | shut hopen =>
    obtain ⟨-, -, -, rfl⟩ := Parser.openPart_failed hopen
    exact ⟨[], (List.append_nil _).symm, .nil (hwithin.bounded hmargin)⟩
  | @stuck _ owner part _ _ _ after _ _ hopen _ ih =>
    obtain ⟨hentered, hlimit, hinside⟩ :=
      Parser.within_openPart hopen hwithin huses.1
    obtain ⟨added, htrace, hadded⟩ :=
      ih (uses_keepsWithin owner part) part.margin_le hinside
    change after.trace.toList = _ at htrace
    rw [hlimit] at hadded
    refine ⟨part.opens.map .enter ++ added, ?_,
      .append (.enter (hwithin.bounded hmargin) hadded.bounded)
        (openAfter_enter part opened) hadded⟩
    rw [← List.append_assoc, ← hentered]
    exact htrace
  | @through _ owner part _ _ _ inside _ _ _ _ hopen hbody _ ihBody
      ihNext =>
    have hbounded := hwithin.bounded hmargin
    obtain ⟨-, hlimit, hinside⟩ :=
      Parser.within_openPart hopen hwithin huses.1
    obtain ⟨added, htrace, hadded⟩ :=
      ihBody (uses_keepsWithin owner part) part.margin_le hinside
    change inside.trace.toList = _ at htrace
    rw [hlimit] at hadded
    -- what a part adds that succeeds is a forest, which closes all
    obtain ⟨forest, _, -, -, hpasses⟩ := hbody.passes derived_body rfl
    obtain rfl : added = forest.entries :=
      List.append_cancel_left (htrace.symm.trans hpasses.trace)
    have hclosed := Parser.Passes.part hopen hpasses
    obtain ⟨rest, hrest, hback⟩ :=
      ihNext (huses.2 _) hmargin (hwithin.of_passes hclosed)
    rw [hclosed.limit] at hback
    refine ⟨(part.wrap forest).entries ++ rest, ?_,
      .append (.wrap hbounded hadded) (openAfter_entries _ opened) hback⟩
    rw [hrest, hclosed.trace, List.append_assoc]

-- ======================================================= whole classes

/-- At every moment of the parsing of a class the rules entered and not
yet left are open one inside the other. At most as many of them are
counted ones as the limit says, and of all rules there are at most four
more than twice as many. -/
theorem open_le_of_moment {source : TokenSource} {limit : Nat}
    {moment : List Entry}
    (h : moment <+:
      (Parser.start source limit).parseClass.after.trace.toList) :
    ∃ opened, openAfter [] moment = some opened
      ∧ (∀ rule, moment.count (.enter rule)
          = opened.count rule + moment.count (.exit rule))
      ∧ opened.countP Rule.isCounted ≤ limit
      ∧ opened.length ≤ 2 * limit + 4 := by
  obtain ⟨tokens, hruns⟩ :=
    Recognizer.runs_run (.rule "" .classDec) (.start source limit)
  have hfits : (Part.rule .classDec).FitsIn 0 := by decide
  have hwithin : (Parser.start source limit).Within [] 0 :=
    ⟨rfl, Nat.zero_le limit, Nat.zero_le _⟩
  obtain ⟨added, htrace, hadded⟩ :=
    hruns.staysBounded (.rule hfits) (Nat.zero_le 4) hwithin
  rw [Parser.after_parseClass, htrace] at h
  obtain ⟨opened, hopened, hbounded⟩ := hadded moment h
  refine ⟨opened, hopened, fun rule => ?_, hbounded.counted, hbounded.all⟩
  have hcount := count_of_openAfter hopened rule
  rwa [List.count_nil, Nat.zero_add] at hcount

/-- Under the limit 1 the start of a call in a statement has six rules
open, and no more are allowed. -/
theorem open_le_of_moment_call :
    ∃ source moment opened,
      moment <+: (Parser.start source 1).parseClass.after.trace.toList
        ∧ opened.length = 6 ∧ openAfter [] moment = some opened
        ∧ (∀ rule, moment.count (.enter rule)
            = opened.count rule + moment.count (.exit rule))
        ∧ opened.countP Rule.isCounted ≤ 1
        ∧ opened.length ≤ 2 * 1 + 4 := by
  let words : List (Kind × String) := [(.kwClass, "class"),
    (.identifier, "A"), (.openCurly, "\x7b"), (.kwMethod, "method"),
    (.kwVoid, "void"), (.identifier, "f"), (.openParen, "("),
    (.closeParen, ")"), (.openCurly, "\x7b"), (.kwDo, "do"),
    (.identifier, "g"), (.openParen, "("), (.number, "1")]
  let source : TokenSource := .ofTokens
    (words.map fun (kind, value) => ⟨kind, value, .start⟩)
  let moment : List Entry :=
    (Parser.start source 1).parseClass.after.trace.toList
  have hsix : (openAfter [] moment).map List.length = some 6 := by
    decide +kernel
  have hmoment : moment <+: moment := List.prefix_rfl
  obtain ⟨opened, hopened, hbounds⟩ := open_le_of_moment hmoment
  rw [hopened] at hsix
  exact ⟨source, moment, opened, hmoment, Option.some.inj hsix, hopened,
    hbounds⟩

end JackSyntax
