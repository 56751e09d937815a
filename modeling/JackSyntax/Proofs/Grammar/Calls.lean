/-
Calls along rows of trees. `Forest.closedCalls` finds a call by the leaves
around a list of expressions, so the calls of two rows put together are
those of both (`closedCalls_append`) as long as no call lies across the
seam: the second row must not lead to a list of expressions, and the first
must not end in one.

`Forest.Recorded` is what is to be shown of the notes that a recognizer
leaves: they hold the calls of the forest that it went through, all of
them, each closed by a parenthesis.
-/
import JackSyntax.Grammar.Records

namespace JackSyntax.Forest

-- =========================================== the order of the calls

/-- The tokens that close the calls stand in this order among the leaves,
so the calls come in the order in which they are closed. -/
theorem closers_sublist_leaves (owner : String) (forest : Forest) :
    ((forest.closedCalls owner).map Prod.fst).Sublist forest.leaves := by
  fun_induction closedCalls owner forest with
  | case1 => exact .slnil
  | case2 receiver dot name opening arguments closing rest _ ihArgs ihRest =>
    rw [List.map_append, List.map_cons]
    have hlist := ihArgs.append (ihRest.cons_cons closing)
    exact (((hlist.cons opening).cons name).cons dot).cons receiver
  | case3 receiver dot name opening arguments closing rest _ ih =>
    exact ih.cons receiver
  | case4 name opening arguments closing rest ihArgs ihRest =>
    rw [List.map_append, List.map_cons]
    exact ((ihArgs.append (ihRest.cons_cons closing)).cons opening).cons name
  | case5 token rest _ _ ih => exact ih.cons token
  | case6 rule inside rest ihInside ihRest =>
    rw [List.map_append]
    exact ihInside.append ihRest

-- ============================================================== seams

/-- The first tree of the row that is no leaf is a list of expressions. -/
def leadsToList : Forest → Bool
  | .nil => false
  | .leaf _ rest => rest.leadsToList
  | .node rule _ _ => rule == .expressionList

/-- The last tree of the row is a list of expressions. -/
def endsInList : Forest → Bool
  | .nil => false
  | .leaf _ rest => rest.endsInList
  | .node rule _ .nil => rule == .expressionList
  | .node _ _ rest => rest.endsInList

/-- No call lies across either end of the row. -/
structure IsTight (forest : Forest) : Prop where
  front : forest.leadsToList = false
  back : forest.endsInList = false

theorem leadsToList_append {first second : Forest}
    (hfirst : first.leadsToList = false)
    (hsecond : second.leadsToList = false) :
    (first ++ second).leadsToList = false := by
  induction first with
  | nil => exact hsecond
  | leaf token rest ih => exact ih hfirst
  | node rule inside rest _ _ => exact hfirst

theorem endsInList_append {first second : Forest}
    (hfirst : first.endsInList = false)
    (hsecond : second.endsInList = false) :
    (first ++ second).endsInList = false := by
  induction first with
  | nil => exact hsecond
  | leaf token rest ih => exact ih hfirst
  | node rule inside rest _ ih =>
    cases rest with
    | nil =>
      cases second with
      | nil => exact hfirst
      | leaf token second => exact hsecond
      | node rule' inside' second => exact hsecond
    | leaf token rest => exact ih hfirst
    | node rule' inside' rest => exact ih hfirst

theorem IsTight.append {first second : Forest} (hfirst : first.IsTight)
    (hsecond : second.IsTight) : (first ++ second).IsTight where
  front := leadsToList_append hfirst.front hsecond.front
  back := endsInList_append hfirst.back hsecond.back

/-- Leaves before a row. -/
def row (leaves : List Token) (rest : Forest) : Forest :=
  leaves.foldr leaf rest

theorem leadsToList_row (leaves : List Token) (rest : Forest) :
    (row leaves rest).leadsToList = rest.leadsToList := by
  induction leaves with
  | nil => rfl
  | cons token leaves ih => exact ih

/-- A call that is found in two rows put together lies in the first of
them, if it starts there. -/
theorem exists_row_of_append (leaves : List Token)
    {front back arguments rest : Forest} {closing : Token}
    (h : front ++ back = row leaves
      (.node .expressionList arguments (.leaf closing rest)))
    (hfront : front.endsInList = false) (hback : back.leadsToList = false) :
    ∃ tail, front = row leaves
      (.node .expressionList arguments (.leaf closing tail)) := by
  have hleads : (front ++ back).leadsToList = true := by
    rw [h, leadsToList_row]
    rfl
  induction leaves generalizing front with
  | nil =>
    cases front with
    | nil =>
      rw [nil_append, hback] at hleads
      cases hleads
    | leaf token front => cases h
    | node rule inside front =>
      obtain ⟨rfl, rfl, hrest⟩ := node.inj h
      cases front with
      | nil => cases hfront
      | leaf token front =>
        obtain ⟨rfl, -⟩ := leaf.inj hrest
        exact ⟨front, rfl⟩
      | node rule inside front => cases hrest
  | cons token leaves ih =>
    cases front with
    | nil =>
      rw [nil_append, hback] at hleads
      cases hleads
    | leaf token' front =>
      obtain ⟨rfl, hrest⟩ := leaf.inj h
      obtain ⟨tail, rfl⟩ := ih hrest hfront hleads
      exact ⟨tail, rfl⟩
    | node rule inside front => cases h

/-- Rows are put together between their calls. -/
theorem closedCalls_append (owner : String) {front back : Forest}
    (hfront : front.endsInList = false) (hback : back.leadsToList = false) :
    closedCalls owner (front ++ back)
      = closedCalls owner front ++ closedCalls owner back := by
  fun_induction closedCalls owner front with
  | case1 => rfl
  | case2 receiver dot name opening arguments closing rest hdot _ ihRest =>
    simp only [leaf_append, node_append, closedCalls, if_pos hdot]
    rw [ihRest hfront, List.append_assoc, List.cons_append]
  | case3 receiver dot name opening arguments closing rest hdot ih =>
    simp only [leaf_append, node_append, closedCalls, if_neg hdot]
    exact ih hfront
  | case4 name opening arguments closing rest _ ihRest =>
    simp only [leaf_append, node_append, closedCalls]
    rw [ihRest hfront, List.append_assoc, List.cons_append]
  | case5 token rest hdotted hbare ih =>
    rw [leaf_append, closedCalls]
    · exact ih hfront
    · intro dot name opening arguments closing tail h
      obtain ⟨tail, rfl⟩ :=
        exists_row_of_append [dot, name, opening] h hfront hback
      exact hdotted _ _ _ _ _ _ rfl
    · intro opening arguments closing tail h
      obtain ⟨tail, rfl⟩ :=
        exists_row_of_append [opening] h hfront hback
      exact hbare _ _ _ _ rfl
  | case6 rule inside rest _ ihRest =>
    have hrest : rest.endsInList = false := by
      cases rest with
      | nil => rfl
      | leaf token rest => exact hfront
      | node rule inside rest => exact hfront
    rw [node_append, closedCalls, ihRest hrest, List.append_assoc]

-- ============================================================== notes

/-- The notes hold the calls of the forest, one for each of its lists of
arguments, and each call is closed. -/
structure Recorded (owner : String) (forest : Forest) (notes : List Note) :
    Prop where
  calls : notes.filterMap Note.call? = forest.calls owner
  closed : ∀ closed ∈ forest.closedCalls owner, closed.1.kind = .closeParen
  lists : (forest.closedCalls owner).length
    = forest.entries.count (.enter .expressionList)

namespace Recorded

variable {owner : String} {notes : List Note}

theorem nil : Forest.nil.Recorded owner [] where
  calls := rfl
  closed := fun _ hmem => nomatch hmem
  lists := rfl

theorem leaf (token : Token) : (Forest.leaf token .nil).Recorded owner [] where
  calls := rfl
  closed := fun _ hmem => nomatch hmem
  lists := rfl

/-- A rule other than a list of expressions adds nothing. -/
theorem node {rule : Rule} {inside : Forest}
    (h : inside.Recorded owner notes) (hrule : rule ≠ .expressionList) :
    (Forest.node rule inside .nil).Recorded owner notes := by
  have hcalls : (Forest.node rule inside .nil).closedCalls owner
      = inside.closedCalls owner := List.append_nil _
  refine ⟨?_, ?_, ?_⟩
  · rw [h.calls, Forest.calls, Forest.calls, hcalls]
  · rw [hcalls]
    exact h.closed
  · rw [hcalls, h.lists, Forest.entries, Forest.entries]
    simp [hrule]

theorem append {front back : Forest} {before after : List Note}
    (hfront : front.Recorded owner before) (hback : back.Recorded owner after)
    (hends : front.endsInList = false) (hleads : back.leadsToList = false) :
    (front ++ back).Recorded owner (before ++ after) := by
  have hcalls := closedCalls_append owner hends hleads
  refine ⟨?_, ?_, ?_⟩
  · rw [List.filterMap_append, hfront.calls, hback.calls, Forest.calls,
      Forest.calls, Forest.calls, hcalls, List.map_append]
  · rw [hcalls]
    intro closed hmem
    rcases List.mem_append.1 hmem with hmem | hmem
    · exact hfront.closed closed hmem
    · exact hback.closed closed hmem
  · rw [hcalls, List.length_append, hfront.lists, hback.lists,
      entries_append, List.count_append]

/-- A note of something else than a call may be left as well. -/
theorem cons {forest : Forest} {left : Note}
    (h : forest.Recorded owner notes) (hleft : left.call? = none) :
    forest.Recorded owner (left :: notes) where
  calls := (List.filterMap_cons_none hleft).trans h.calls
  closed := h.closed
  lists := h.lists

end Recorded

-- ======================================================= single calls

/-- What follows the first name of a call: a list of arguments in
parentheses, perhaps after a dot and a second name. The call that the two
make is the last one. -/
inductive IsCallRest (owner : String) (first : Token) (arguments : Forest)
    (closing : Token) : Forest → Call → Prop
  | bare (opening : Token) :
    IsCallRest owner first arguments closing
      (.leaf opening (.node .expressionList arguments (.leaf closing .nil)))
      ⟨qualify owner first.value, arguments.count .expression, true,
        first.position.line⟩
  | dotted (dot name opening : Token) (hdot : dot.kind = .dot) :
    IsCallRest owner first arguments closing
      (.leaf dot (.leaf name (.leaf opening
        (.node .expressionList arguments (.leaf closing .nil)))))
      ⟨qualify first.value name.value, arguments.count .expression, false,
        first.position.line⟩

namespace IsCallRest

variable {owner : String} {first closing : Token}
  {arguments rest : Forest} {call : Call}

theorem closedCalls_eq (h : IsCallRest owner first arguments closing rest call) :
    (Forest.leaf first rest).closedCalls owner
      = arguments.closedCalls owner ++ [(closing, call)] := by
  cases h with
  | bare opening => simp only [closedCalls]
  | dotted dot name opening hdot => simp only [closedCalls, if_pos hdot]

/-- A keyword before a call is not part of it. -/
theorem closedCalls_leaf (h : IsCallRest owner first arguments closing rest call)
    (keyword : Token) :
    (Forest.leaf keyword (.leaf first rest)).closedCalls owner
      = (Forest.leaf first rest).closedCalls owner := by
  cases h with
  | bare opening => simp only [closedCalls]
  | dotted dot name opening hdot => simp only [closedCalls]

theorem endsInList_eq (h : IsCallRest owner first arguments closing rest call) :
    rest.endsInList = false := by
  cases h <;> rfl

theorem count_entries (h : IsCallRest owner first arguments closing rest call) :
    rest.entries.count (.enter .expressionList)
      = arguments.entries.count (.enter .expressionList) + 1 := by
  cases h <;> simp [entries]

/-- The call is recorded after those among its arguments. -/
theorem recorded (h : IsCallRest owner first arguments closing rest call)
    {notes : List Note} (harguments : arguments.Recorded owner notes)
    (hclosing : closing.kind = .closeParen) :
    (Forest.leaf first rest).Recorded owner (notes ++ [.call call]) := by
  have hcalls := h.closedCalls_eq
  refine ⟨?_, ?_, ?_⟩
  · rw [List.filterMap_append, harguments.calls, Forest.calls,
      Forest.calls, hcalls, List.map_append]
    rfl
  · rw [hcalls]
    intro closed hmem
    rcases List.mem_append.1 hmem with hmem | hmem
    · exact harguments.closed closed hmem
    · rw [List.mem_singleton.1 hmem]
      exact hclosing
  · rw [hcalls, List.length_append, harguments.lists]
    exact h.count_entries.symm

/-- The same after a keyword. -/
theorem recorded_leaf (h : IsCallRest owner first arguments closing rest call)
    {notes : List Note} (harguments : arguments.Recorded owner notes)
    (hclosing : closing.kind = .closeParen) (keyword : Token) :
    (Forest.leaf keyword (.leaf first rest)).Recorded owner
      (notes ++ [.call call]) := by
  have hcall := h.recorded harguments hclosing
  have hcalls := h.closedCalls_leaf keyword
  refine ⟨?_, ?_, ?_⟩
  · rw [hcall.calls, Forest.calls, Forest.calls, hcalls]
  · rw [hcalls]
    exact hcall.closed
  · rw [hcalls]
    exact hcall.lists

end IsCallRest

end JackSyntax.Forest
