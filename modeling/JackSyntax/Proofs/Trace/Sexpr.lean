/-
S-expressions of well nested traces. A trace is written by joining a part
for each of its entries with blanks and then dropping the blank before
every closing parenthesis. That is meant for the exits, but no distinction
is made: a parenthesis that belongs to a token loses its blank as well.

The parts can be looked at one by one, each with the blank in front of it,
for a blank to be dropped stands in front of a part or inside of one
(`closeUp_flatMap`). No part becomes longer than it should be, so a text
that comes out right is right in every part (`flatMap_eq_flatMap_iff`).
An exit always is, and so is the enter of a rule. A token is unless the
blank before it is dropped or one inside (`closeUp_eq_self_iff`).
-/
import JackSyntax.Proofs.Trace.Nested

namespace JackSyntax

-- ===================================================== the documented form

namespace Forest

/-- The trees of a row: a token is its value, and a rule is in
parentheses, first its tag and then each of its trees after a blank. -/
def sexprs : Forest → List String
  | .nil => []
  | .leaf token rest => token.value :: sexprs rest
  | .node rule inside rest =>
    ("(" ++ rule.tag ++ String.join ((sexprs inside).map (" " ++ ·)) ++ ")")
      :: sexprs rest

/-- The trees of a row on one line, with a blank between them. -/
def sexpr (forest : Forest) : String := " ".intercalate forest.sexprs

end Forest

-- ============================================================= closing up

theorem closeUp_cons {c : Char} {cs : List Char}
    (h : c = ' ' → cs.head? ≠ some ')') :
    closeUp (c :: cs) = c :: closeUp cs := by
  rw [closeUp]
  rintro rest rfl rfl
  exact h rfl rfl

/-- A text is closed up in pieces, where no piece after the first starts
with a parenthesis. -/
theorem closeUp_append {front back : List Char}
    (h : back.head? ≠ some ')') :
    closeUp (front ++ back) = closeUp front ++ closeUp back := by
  fun_induction closeUp front with
  | case1 => rfl
  | case2 cs ih => rw [List.cons_append, List.cons_append, closeUp, ih]; rfl
  | case3 c cs hother ih =>
    have hfirst : c = ' ' → (cs ++ back).head? ≠ some ')' := by
      rintro rfl
      cases cs with
      | nil => exact h
      | cons d cs =>
        rw [List.cons_append, List.head?_cons]
        intro hd
        cases Option.some.inj hd
        exact hother cs rfl rfl
    rw [List.cons_append, closeUp_cons hfirst, ih, List.cons_append]

theorem length_closeUp_le (cs : List Char) :
    (closeUp cs).length ≤ cs.length := by
  fun_induction closeUp cs with
  | case1 => exact Nat.le_refl _
  | case2 cs ih =>
    simp only [List.length_cons]
    omega
  | case3 c cs hother ih => exact Nat.succ_le_succ ih

/-- What is closed up stays the same just if it has no blank before a
closing parenthesis. -/
theorem closeUp_eq_self_iff (cs : List Char) :
    closeUp cs = cs ↔ ¬ [' ', ')'] <:+: cs := by
  fun_induction closeUp cs with
  | case1 => simp
  | case2 cs ih =>
    have hinfix : [' ', ')'] <:+: ' ' :: ')' :: cs :=
      (List.prefix_append [' ', ')'] cs).isInfix
    refine ⟨fun heq => ?_, fun hnone => absurd hinfix hnone⟩
    cases List.head_eq_of_cons_eq heq
  | case3 c cs hother ih =>
    have hprefix : ¬ [' ', ')'] <+: c :: cs := by
      rintro ⟨rest, hrest⟩
      cases hrest
      exact hother rest rfl rfl
    rw [List.cons.injEq, eq_self_iff_true, true_and, ih,
      List.infix_cons_iff, or_iff_right hprefix]

-- ============================================================ part by part

section

variable {α β : Type} {f g : α → List β} {pieces : List α}

theorem length_flatMap_le
    (hle : ∀ piece ∈ pieces, (f piece).length ≤ (g piece).length) :
    (pieces.flatMap f).length ≤ (pieces.flatMap g).length := by
  induction pieces with
  | nil => exact Nat.le_refl 0
  | cons piece pieces ih =>
    obtain ⟨hpiece, hpieces⟩ := List.forall_mem_cons.1 hle
    rw [List.flatMap_cons, List.flatMap_cons, List.length_append,
      List.length_append]
    exact Nat.add_le_add hpiece (ih hpieces)

/-- Lists in pieces, where no piece of the one is longer than that of the
other: the whole is the same just if every piece is. -/
theorem flatMap_eq_flatMap_iff
    (hle : ∀ piece ∈ pieces, (f piece).length ≤ (g piece).length) :
    pieces.flatMap f = pieces.flatMap g
      ↔ ∀ piece ∈ pieces, f piece = g piece := by
  induction pieces with
  | nil => simp
  | cons piece pieces ih =>
    obtain ⟨hpiece, hpieces⟩ := List.forall_mem_cons.1 hle
    rw [List.flatMap_cons, List.flatMap_cons, List.forall_mem_cons,
      ← ih hpieces]
    refine ⟨fun heq => ?_, fun ⟨hfirst, hrest⟩ => by rw [hfirst, hrest]⟩
    have hrest := length_flatMap_le hpieces
    have hlength := congrArg List.length heq
    rw [List.length_append, List.length_append] at hlength
    exact List.append_inj heq (by omega)

end

/-- A text after a blank. -/
def afterBlank (text : String) : List Char := ' ' :: text.toList

theorem cons_intercalate {parts : List String} (h : parts ≠ []) :
    afterBlank (" ".intercalate parts) = parts.flatMap afterBlank := by
  induction parts with
  | nil => exact absurd rfl h
  | cons part parts ih =>
    cases parts with
    | nil => simp [afterBlank]
    | cons next parts =>
      have hrest := ih (List.cons_ne_nil _ _)
      rw [List.flatMap_cons, ← hrest, String.intercalate_cons_cons,
        afterBlank, afterBlank, afterBlank, String.toList_append,
        String.toList_append, List.append_assoc]
      rfl

/-- Parts after blanks are closed up each by itself. -/
theorem closeUp_flatMap (parts : List String) :
    closeUp (parts.flatMap afterBlank)
      = parts.flatMap fun part => closeUp (afterBlank part) := by
  induction parts with
  | nil => rfl
  | cons part parts ih =>
    have hhead : (parts.flatMap afterBlank).head? ≠ some ')' := by
      cases parts with
      | nil => exact nofun
      | cons next parts =>
        rw [List.flatMap_cons, afterBlank, List.cons_append, List.head?_cons]
        decide
    rw [List.flatMap_cons, List.flatMap_cons, closeUp_append hhead, ih]

namespace Entry

/-- What an entry is to add to a line after the entries before it. -/
def added : Entry → List Char
  | .exit _ => [')']
  | entry => afterBlank entry.part

theorem closeUp_exit (rule : Rule) :
    closeUp (afterBlank (exit rule).part) = (exit rule).added := by
  rw [part, added]
  decide

theorem length_closeUp_le_added (entry : Entry) :
    (closeUp (afterBlank entry.part)).length ≤ entry.added.length := by
  cases entry with
  | exit rule => exact Nat.le_of_eq (congrArg _ (closeUp_exit rule))
  | enter rule => exact length_closeUp_le _
  | terminal token => exact length_closeUp_le _

theorem closeUp_eq_added_iff (entry : Entry) :
    closeUp (afterBlank entry.part) = entry.added
      ↔ ∀ token, entry = .terminal token →
        ¬ [')'] <+: token.value.toList
          ∧ ¬ [' ', ')'] <:+: token.value.toList := by
  cases entry with
  | exit rule => exact ⟨fun _ => nofun, fun _ => closeUp_exit rule⟩
  | enter rule =>
    refine ⟨fun _ => nofun, fun _ => ?_⟩
    cases rule <;> decide
  | terminal token =>
    have hiff : closeUp (afterBlank token.value) = afterBlank token.value
        ↔ ¬ [')'] <+: token.value.toList
          ∧ ¬ [' ', ')'] <:+: token.value.toList := by
      rw [closeUp_eq_self_iff, afterBlank, List.infix_cons_iff,
        List.cons_prefix_cons, eq_self_iff_true, true_and, not_or]
    refine hiff.trans ⟨?_, fun h => h token rfl⟩
    rintro h _ ⟨⟩
    exact h

end Entry

-- ================================================================ traces

/-- The documented form, entry by entry. -/
theorem flatMap_sexprs (forest : Forest) :
    forest.sexprs.flatMap afterBlank
      = forest.entries.flatMap Entry.added := by
  induction forest with
  | nil => rfl
  | leaf token rest ih =>
    rw [Forest.sexprs, List.flatMap_cons, ih]
    rfl
  | node rule inside rest ihInside ihRest =>
    have hinside : (String.join (inside.sexprs.map (" " ++ ·))).toList
        = inside.sexprs.flatMap afterBlank := by
      rw [String.toList_join, List.flatMap_map]
      simp only [String.toList_append]
      rfl
    rw [Forest.sexprs, List.flatMap_cons, ihRest, Forest.entries,
      List.flatMap_cons, List.flatMap_append, List.flatMap_cons,
      ← ihInside, ← hinside]
    simp only [afterBlank, Entry.added, Entry.part, String.toList_append,
      List.append_assoc, List.cons_append]
    rfl

/-- What comes out where a rule comes first, entry by entry. -/
theorem afterBlank_sexpr {trace : Trace} {rule : Rule} {entries : List Entry}
    (h : trace.toList = .enter rule :: entries) :
    afterBlank trace.sexpr
      = trace.toList.flatMap fun entry => closeUp (afterBlank entry.part) := by
  have hparts : trace.toList.map Entry.part ≠ [] := by
    rw [h]
    exact List.cons_ne_nil _ _
  have hhead : (" ".intercalate (trace.toList.map Entry.part)).toList.head?
      ≠ some ')' := by
    rw [String.toList_intercalate, h]
    cases entries <;> simp [Entry.part]
  calc afterBlank trace.sexpr
      = closeUp (afterBlank
          (" ".intercalate (trace.toList.map Entry.part))) := by
        rw [afterBlank, afterBlank, closeUp_cons fun _ => hhead, Trace.sexpr,
          String.toList_ofList]
    _ = (trace.toList.map Entry.part).flatMap
          fun part => closeUp (afterBlank part) := by
        rw [cons_intercalate hparts, closeUp_flatMap]
    _ = _ := List.flatMap_map ..

theorem sexpr_eq_of_node {trace : Trace} {rule : Rule} {inside rest : Forest}
    (h : trace.toList = (Forest.node rule inside rest).entries) :
    trace.sexpr = (Forest.node rule inside rest).sexpr
      ↔ ∀ entry ∈ trace.toList,
        closeUp (afterBlank entry.part) = entry.added := by
  have htrace := afterBlank_sexpr h
  have hsexprs : (Forest.node rule inside rest).sexprs ≠ [] :=
    List.cons_ne_nil _ _
  have hforest : afterBlank (Forest.node rule inside rest).sexpr
      = trace.toList.flatMap Entry.added := by
    rw [Forest.sexpr, cons_intercalate hsexprs, flatMap_sexprs, h]
  rw [← flatMap_eq_flatMap_iff fun entry _ => entry.length_closeUp_le_added,
    ← htrace, ← hforest, afterBlank, afterBlank, List.cons.injEq,
    eq_self_iff_true, true_and, String.toList_inj]

/-- The s-expression of a well nested trace is the documented form of its
forest just if no token has a value that starts with a closing parenthesis
or has one after a blank. -/
theorem sexpr_eq_iff {trace : Trace} (h : trace.isWellNested = true) :
    ∃ forest : Forest,
      (forest.isAllRules = true ∧ trace.toList = forest.entries)
      ∧ (∀ other : Forest, trace.toList = other.entries → other = forest)
      ∧ (trace.sexpr = forest.sexpr
        ↔ ∀ token, .terminal token ∈ trace.toList →
          ¬ [')'] <+: token.value.toList
            ∧ ¬ [' ', ')'] <:+: token.value.toList) := by
  obtain ⟨forest, hroots, htrace⟩ := exists_forest_of_closesFrom h
  refine ⟨forest, ⟨hroots, htrace⟩, fun other hother =>
    Forest.entries_inj (hother.symm.trans htrace), ?_⟩
  cases forest with
  | nil =>
    rw [Trace.sexpr, htrace]
    exact ⟨fun _ => nofun, fun _ => rfl⟩
  | leaf token rest => cases hroots
  | node rule inside rest =>
    rw [sexpr_eq_of_node htrace]
    simp only [Entry.closeUp_eq_added_iff]
    refine ⟨fun hall token hmem => hall _ hmem token rfl, ?_⟩
    rintro hall _ hmem token rfl
    exact hall token hmem

/-- A string that ends in a blank is written as it stands, and one with a
closing parenthesis after a blank is not. -/
theorem sexpr_eq_iff_string :
    let trace (value : String) : Trace := .ofList
      [.enter .term, .terminal ⟨.string, value, .start⟩, .exit .term]
    ((trace "a ").isWellNested = true
        ∧ ∃ forest : Forest, (trace "a ").toList = forest.entries
          ∧ (trace "a ").sexpr = forest.sexpr)
      ∧ (trace "a )").isWellNested = true
        ∧ ∃ forest : Forest, (trace "a )").toList = forest.entries
          ∧ (trace "a )").sexpr ≠ forest.sexpr := by
  intro trace
  have hblank : (trace "a ").isWellNested = true := by decide
  have hclosing : (trace "a )").isWellNested = true := by decide
  obtain ⟨forest, ⟨-, hforest⟩, -, hiff⟩ := sexpr_eq_iff hblank
  obtain ⟨other, ⟨-, hother⟩, -, hiff'⟩ := sexpr_eq_iff hclosing
  refine ⟨⟨hblank, forest, hforest, hiff.2 fun token hmem => ?_⟩,
    hclosing, other, hother, fun heq => ?_⟩
  · obtain rfl : token = ⟨.string, "a ", .start⟩ := by
      simpa [trace] using hmem
    decide
  · exact (hiff'.1 heq ⟨.string, "a )", .start⟩ (by decide)).2 (by decide)

end JackSyntax
