/-
Well nested traces are those of forests. The check reads the entries once
and keeps the rules that are open; what it has accepted when it is done is
a row of rules, each of them complete.

What stands after some entry can be described without the check: for each
rule that is open there, the trees that are still to come in it and its
exit, and at last a row of rules (`Unwinds`). The check finds that this is
so (`unwinds_of_closesFrom`), and with no rule open it is the entries of a
forest. The other way round is `Forest.closesFrom_entries`.

The lines of such a trace are those of its trees. An exit takes the margin
back to where its enter was, so it never runs out (`xmlLines_entries`).
-/
import JackSyntax.Grammar.Forest

namespace JackSyntax

-- ======================================================== open rules

/-- With the given rules open, innermost first, each of them has trees to
come and then its exit, and after them there is a row of rules. -/
inductive Unwinds : (opened : List Rule) → List Entry → Prop
  | outside {forest : Forest} (hroots : forest.isAllRules = true) :
    Unwinds [] forest.entries
  | inside {rule : Rule} {opened : List Rule} {forest : Forest}
    {rest : List Entry} (h : Unwinds opened rest) :
    Unwinds (rule :: opened) (forest.entries ++ .exit rule :: rest)

namespace Unwinds

variable {opened : List Rule} {rest : List Entry}

/-- A complete rule may come first, whatever is open. -/
theorem node {rule : Rule} {inside : Forest} (h : Unwinds opened rest) :
    Unwinds opened
      (.enter rule :: (inside.entries ++ .exit rule :: rest)) := by
  cases h with
  | @outside forest hroots =>
    have hnode : (Forest.node rule inside forest).isAllRules = true := hroots
    exact .outside hnode
  | @inside around opened forest rest h =>
    have hentries : Entry.enter rule :: (inside.entries
          ++ .exit rule :: (forest.entries ++ .exit around :: rest))
        = (Forest.node rule inside forest).entries
          ++ .exit around :: rest := by
      rw [Forest.entries, List.cons_append, List.append_assoc,
        List.cons_append]
    rw [hentries]
    exact .inside h

/-- A token may come first inside a rule. -/
theorem leaf {rule : Rule} {token : Token}
    (h : Unwinds (rule :: opened) rest) :
    Unwinds (rule :: opened) (.terminal token :: rest) := by
  cases h with
  | @inside _ _ forest rest h =>
    have hentries : Entry.terminal token
          :: (forest.entries ++ .exit rule :: rest)
        = (Forest.leaf token forest).entries ++ .exit rule :: rest := rfl
    rw [hentries]
    exact .inside h

end Unwinds

/-- By induction on the entries, with any rules open: what comes first is
put before what the rest unwinds to. -/
theorem unwinds_of_closesFrom {opened : List Rule} {entries : List Entry}
    (h : closesFrom opened entries = true) : Unwinds opened entries := by
  induction entries generalizing opened with
  | nil =>
    cases opened with
    | nil => exact @Unwinds.outside .nil rfl
    | cons rule opened => cases h
  | cons entry entries ih =>
    cases entry with
    | enter rule =>
      rw [closesFrom] at h
      cases ih h with
      | inside hrest => exact hrest.node
    | exit rule =>
      cases opened with
      | nil => cases h
      | cons innermost opened =>
        rw [closesFrom, Bool.and_eq_true, beq_iff_eq] at h
        obtain ⟨rfl, h⟩ := h
        exact @Unwinds.inside innermost opened .nil entries (ih h)
    | terminal token =>
      cases opened with
      | nil => cases h
      | cons innermost opened =>
        rw [closesFrom] at h
        exact (ih h).leaf

/-- With no rule open, what the check accepts is a row of rules. -/
theorem exists_forest_of_closesFrom {entries : List Entry}
    (h : closesFrom [] entries = true) :
    ∃ forest : Forest, forest.isAllRules = true
      ∧ entries = forest.entries := by
  cases unwinds_of_closesFrom h with
  | outside hroots => exact ⟨_, hroots, rfl⟩

-- =============================================================== lines

namespace Forest

/-- The lines of a row of trees after a margin: one for a token, one where
a rule starts and one where it ends. What is inside the rule has two more
blanks for its margin. -/
def lines (margin : String) : Forest → List String
  | .nil => []
  | .leaf token rest => (margin ++ token.xml ++ "\n") :: lines margin rest
  | .node rule inside rest =>
    (margin ++ "<" ++ rule.tag ++ ">\n") :: (lines (margin ++ "  ") inside
      ++ (margin ++ "</" ++ rule.tag ++ ">\n") :: lines margin rest)

end Forest

/-- The margin under so many open rules. -/
def margin (depth : Nat) : String :=
  String.ofList (List.replicate (2 * depth) ' ')

theorem margin_succ (depth : Nat) :
    margin (depth + 1) = margin depth ++ "  " := by
  rw [margin, margin, Nat.mul_succ, ← List.replicate_append_replicate,
    String.ofList_append]
  rfl

theorem xmlLine_eq (depth : Nat) (text : String) :
    xmlLine depth text = margin depth ++ text ++ "\n" := rfl

/-- The depth is the same after a forest as before it. -/
theorem xmlLines_entries_append (forest : Forest) (depth : Nat)
    (rest : List Entry) :
    xmlLines depth (forest.entries ++ rest)
      = forest.lines (margin depth) ++ xmlLines depth rest := by
  induction forest generalizing depth rest with
  | nil => rfl
  | leaf token after ih =>
    rw [Forest.entries, List.cons_append, xmlLines, ih, Forest.lines,
      List.cons_append, xmlLine_eq]
  | node rule inside after ihInside ihAfter =>
    have hexit : xmlLines (depth + 1)
          (.exit rule :: (after.entries ++ rest))
        = (margin depth ++ "</" ++ rule.tag ++ ">\n")
          :: (after.lines (margin depth) ++ xmlLines depth rest) := by
      rw [xmlLines, Nat.add_sub_cancel, ihAfter, xmlLine_eq]
      simp only [String.append_assoc]
      rfl
    rw [Forest.entries, List.cons_append, xmlLines, List.append_assoc,
      ihInside, List.cons_append, hexit, Forest.lines, List.cons_append,
      List.append_assoc, List.cons_append, margin_succ, xmlLine_eq]
    simp only [String.append_assoc]
    rfl

theorem xmlLines_entries (forest : Forest) :
    xmlLines 0 forest.entries = forest.lines "" := by
  have hlines := xmlLines_entries_append forest 0 []
  rw [List.append_nil, xmlLines, List.append_nil] at hlines
  exact hlines

-- ============================================================== traces

/-- A trace is well nested just if it is that of a row of rules, and its
XML is the lines of their trees. -/
theorem isWellNested_iff (trace : Trace) :
    (trace.isWellNested = true ↔ ∃ forest : Forest,
        forest.isAllRules = true ∧ trace.toList = forest.entries)
      ∧ ∀ forest : Forest, trace.toList = forest.entries →
        trace.xml = String.join (forest.lines "") := by
  refine ⟨⟨exists_forest_of_closesFrom, ?_⟩, fun forest htrace => ?_⟩
  · rintro ⟨forest, hroots, htrace⟩
    rw [Trace.isWellNested, htrace]
    exact forest.closesFrom_entries hroots
  · rw [Trace.xml, htrace, xmlLines_entries]

end JackSyntax
