/-
Forests: the trees that traces record. A forest is a row of trees; a
tree is a token, or a rule over a forest of its own. Writing the row and
the trees as one type makes every definition here a plain recursion and
every proof a plain induction.

`entries` is the trace of a forest. It is well nested whenever no token
stands outside a rule (`closesFrom_entries`), and a forest is determined
by it.
-/
import JackSyntax.Trace

namespace JackSyntax

/-- A row of trees, from left to right. -/
inductive Forest
  /-- No tree at all. -/
  | nil
  /-- A token and the trees after it. -/
  | leaf (token : Token) (rest : Forest)
  /-- A rule over its own trees, and the trees after it. -/
  | node (rule : Rule) (inside rest : Forest)
  deriving DecidableEq, Repr

namespace Forest

-- ============================================================== rows

/-- Two rows as one. -/
def append : Forest → Forest → Forest
  | .nil, second => second
  | .leaf token rest, second => .leaf token (rest.append second)
  | .node rule inside rest, second =>
    .node rule inside (rest.append second)

instance : Append Forest := ⟨append⟩

@[simp] theorem nil_append (forest : Forest) : .nil ++ forest = forest :=
  rfl

@[simp] theorem leaf_append (token : Token) (rest second : Forest) :
    .leaf token rest ++ second = .leaf token (rest ++ second) := rfl

@[simp] theorem node_append (rule : Rule)
    (inside rest second : Forest) :
    .node rule inside rest ++ second
      = .node rule inside (rest ++ second) := rfl

@[simp] theorem append_nil (forest : Forest) : forest ++ .nil = forest := by
  induction forest with
  | nil => rfl
  | leaf token rest ih => rw [leaf_append, ih]
  | node rule inside rest _ ih => rw [node_append, ih]

theorem append_assoc (first second third : Forest) :
    first ++ second ++ third = first ++ (second ++ third) := by
  induction first with
  | nil => rfl
  | leaf token rest ih => rw [leaf_append, leaf_append, leaf_append, ih]
  | node rule inside rest _ ih =>
    rw [node_append, node_append, node_append, ih]

-- ============================================================= views

/-- The trace of a forest, tree by tree. -/
def entries : Forest → List Entry
  | .nil => []
  | .leaf token rest => .terminal token :: rest.entries
  | .node rule inside rest =>
    .enter rule :: (inside.entries ++ .exit rule :: rest.entries)

/-- The tokens of a forest, read from left to right. -/
def leaves : Forest → List Token
  | .nil => []
  | .leaf token rest => token :: rest.leaves
  | .node _ inside rest => inside.leaves ++ rest.leaves

/-- The largest number of counted rules that lie one inside the other. -/
def depth : Forest → Nat
  | .nil => 0
  | .leaf _ rest => rest.depth
  | .node rule inside rest =>
    max (inside.depth + if rule.isCounted then 1 else 0) rest.depth

/-- How many trees of the row are of a rule, not counting those inside
other trees. -/
def count (rule : Rule) : Forest → Nat
  | .nil => 0
  | .leaf _ rest => rest.count rule
  | .node rule' _ rest =>
    rest.count rule + if rule' = rule then 1 else 0

/-- Every tree of the row is a rule. -/
def isAllRules : Forest → Bool
  | .nil => true
  | .leaf _ _ => false
  | .node _ _ rest => rest.isAllRules

theorem entries_append (first second : Forest) :
    (first ++ second).entries = first.entries ++ second.entries := by
  induction first with
  | nil => rfl
  | leaf token rest ih =>
    rw [leaf_append, entries, entries, ih, List.cons_append]
  | node rule inside rest _ ih =>
    rw [node_append, entries, entries, ih, List.cons_append,
      List.append_assoc, List.cons_append]

theorem leaves_append (first second : Forest) :
    (first ++ second).leaves = first.leaves ++ second.leaves := by
  induction first with
  | nil => rfl
  | leaf token rest ih =>
    rw [leaf_append, leaves, leaves, ih, List.cons_append]
  | node rule inside rest _ ih =>
    rw [node_append, leaves, leaves, ih, List.append_assoc]

theorem depth_append (first second : Forest) :
    (first ++ second).depth = max first.depth second.depth := by
  induction first with
  | nil => exact (Nat.zero_max _).symm
  | leaf token rest ih => exact ih
  | node rule inside rest _ ih =>
    rw [node_append, depth, depth, ih, Nat.max_assoc]

theorem count_append (rule : Rule) (first second : Forest) :
    (first ++ second).count rule = first.count rule + second.count rule := by
  induction first with
  | nil => exact (Nat.zero_add _).symm
  | leaf token rest ih => exact ih
  | node rule' inside rest _ ih =>
    rw [node_append, count, count, ih]
    omega

-- ==================================================== well-nestedness

/-- Inside a rule, the entries of a forest open and close in pairs. -/
theorem closesFrom_entries_append (forest : Forest) (rule : Rule)
    (opened : List Rule) (rest : List Entry) :
    closesFrom (rule :: opened) (forest.entries ++ rest)
      = closesFrom (rule :: opened) rest := by
  induction forest generalizing rule opened rest with
  | nil => rfl
  | leaf token after ih =>
    rw [entries, List.cons_append, closesFrom]
    exact ih rule opened rest
  | node inner inside after ihInside ihAfter =>
    rw [entries, List.cons_append, closesFrom, List.append_assoc,
      ihInside inner (rule :: opened), List.cons_append, closesFrom,
      beq_self_eq_true, Bool.true_and]
    exact ihAfter rule opened rest

/-- A row of rules has a well nested trace. -/
theorem closesFrom_entries (forest : Forest) (h : forest.isAllRules) :
    closesFrom [] forest.entries = true := by
  induction forest with
  | nil => rfl
  | leaf token after => cases h
  | node rule inside after _ ih =>
    rw [entries, closesFrom, closesFrom_entries_append, closesFrom,
      beq_self_eq_true, Bool.true_and]
    exact ih h

-- ======================================= a trace determines its forest

/-- Two rows with the same entries before the exit of the rule around
them, or before the end, are the same. -/
theorem entries_append_inj {first second : Forest} {rest rest' : List Entry}
    (hrest : ∀ entry ∈ rest.head?, ∃ rule, entry = .exit rule)
    (hrest' : ∀ entry ∈ rest'.head?, ∃ rule, entry = .exit rule)
    (h : first.entries ++ rest = second.entries ++ rest') :
    first = second ∧ rest = rest' := by
  induction first generalizing second rest rest' with
  | nil =>
    cases second with
    | nil => exact ⟨rfl, h⟩
    | leaf token after =>
      obtain rfl : rest = .terminal token :: (after.entries ++ rest') := h
      obtain ⟨rule, hexit⟩ := hrest _ rfl
      cases hexit
    | node rule inside after =>
      obtain rfl : rest = .enter rule :: (inside.entries
        ++ .exit rule :: after.entries ++ rest') := h
      obtain ⟨rule, hexit⟩ := hrest _ rfl
      cases hexit
  | leaf token after ih =>
    cases second with
    | nil =>
      obtain rfl : rest' = .terminal token :: (after.entries ++ rest) :=
        h.symm
      obtain ⟨rule, hexit⟩ := hrest' _ rfl
      cases hexit
    | leaf token' after' =>
      rw [entries, entries, List.cons_append, List.cons_append,
        List.cons.injEq] at h
      obtain ⟨hafter, hsame⟩ := ih hrest hrest' h.2
      cases h.1
      exact ⟨by rw [hafter], hsame⟩
    | node rule inside after' => cases (List.cons.inj h).1
  | node rule inside after ihInside ihAfter =>
    cases second with
    | nil =>
      obtain rfl : rest' = .enter rule :: (inside.entries
        ++ .exit rule :: after.entries ++ rest) := h.symm
      obtain ⟨rule, hexit⟩ := hrest' _ rfl
      cases hexit
    | leaf token after' => cases (List.cons.inj h).1
    | node rule' inside' after' =>
      rw [entries, entries, List.cons_append, List.cons_append,
        List.cons.injEq, List.append_assoc, List.append_assoc] at h
      have hexit : ∀ (named : Rule) (tail : List Entry),
          ∀ entry ∈ (Entry.exit named :: tail).head?,
            ∃ rule, entry = .exit rule := by
        rintro named tail _ ⟨⟩
        exact ⟨named, rfl⟩
      obtain ⟨hinside, htail⟩ := ihInside (hexit _ _) (hexit _ _) h.2
      obtain ⟨hafter, hsame⟩ := ihAfter hrest hrest' (List.cons.inj htail).2
      cases h.1
      exact ⟨by rw [hinside, hafter], hsame⟩

/-- A forest is determined by its trace. -/
theorem entries_inj {first second : Forest}
    (h : first.entries = second.entries) : first = second := by
  have hend : ∀ entry ∈ ([] : List Entry).head?,
      ∃ rule, entry = .exit rule := fun _ hentry => nomatch hentry
  exact (entries_append_inj hend hend (by rw [h])).1

end Forest

end JackSyntax
