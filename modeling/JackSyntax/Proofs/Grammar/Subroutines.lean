/-
Declarations along rows of trees. The subroutines declared in a row are
those of its trees, one after the other (`subroutines_append`), and so
are the names of its local variables; unlike a call, no declaration lies
across the seam of two rows.

`Forest.Declares` is what is to be shown of the notes that a recognizer
leaves: they hold a record for each declaration of a subroutine in the
forest, in order, and for no other.
-/
import JackSyntax.Grammar.Records

namespace JackSyntax.Forest

-- ============================================================== rows

theorem subroutines_append (owner : String) (front back : Forest) :
    (front ++ back).subroutines owner
      = front.subroutines owner ++ back.subroutines owner := by
  fun_induction subroutines owner front with
  | case1 => rfl
  | case2 token rest ih => exact ih
  | case3 inside rest ih =>
    rw [node_append, subroutines, ih, List.append_assoc]
  | case4 rule inside rest hother _ ih =>
    rw [node_append, subroutines, ih, List.append_assoc]
    exact hother

theorem localCount_append (front back : Forest) :
    (front ++ back).localCount = front.localCount + back.localCount := by
  fun_induction localCount front with
  | case1 inside rest ih => rw [node_append, localCount, ih, Nat.add_assoc]
  | case2 rule inside rest hother ih =>
    rw [node_append, localCount, ih]
    exact hother
  | case3 token rest ih => exact ih
  | case4 => exact (Nat.zero_add _).symm

/-- How many names stand in the row. -/
def identifierCount (forest : Forest) : Nat :=
  forest.leaves.countP (·.kind == .identifier)

theorem identifierCount_append (front back : Forest) :
    (front ++ back).identifierCount
      = front.identifierCount + back.identifierCount := by
  rw [identifierCount, leaves_append, List.countP_append]
  rfl

theorem identifierCount_leaf (token : Token) (rest : Forest) :
    (leaf token rest).identifierCount
      = rest.identifierCount + if token.kind = .identifier then 1 else 0 := by
  simp [identifierCount, leaves, List.countP_cons]

/-- After its keyword and its type a declaration has all the names in its
row. -/
theorem nameCount_leaf (keyword type : Token) (names : Forest) :
    (leaf keyword (leaf type names)).nameCount = names.identifierCount := rfl

-- ============================================================== notes

/-- The notes hold the subroutines of the forest, one for each of its
declarations. -/
structure Declares (owner : String) (forest : Forest) (notes : List Note) :
    Prop where
  subroutines : notes.filterMap Note.subroutine? = forest.subroutines owner
  all : (forest.subroutines owner).length
    = forest.entries.count (.enter .subroutineDec)

namespace Declares

variable {owner : String} {notes : List Note}

theorem nil : Forest.nil.Declares owner [] := ⟨rfl, rfl⟩

theorem leaf {token : Token} {rest : Forest} (h : rest.Declares owner notes) :
    (Forest.leaf token rest).Declares owner notes where
  subroutines := h.subroutines
  all := by
    have hother : Entry.terminal token ≠ .enter .subroutineDec := nofun
    rw [Forest.subroutines, h.all, entries, List.count_cons_of_ne hother]

/-- A note of something else than a subroutine may be left as well. -/
theorem cons {forest : Forest} {left : Note}
    (h : forest.Declares owner notes) (hleft : left.subroutine? = none) :
    forest.Declares owner (left :: notes) where
  subroutines := (List.filterMap_cons_none hleft).trans h.subroutines
  all := h.all

theorem append {front back : Forest} {before after : List Note}
    (hfront : front.Declares owner before)
    (hback : back.Declares owner after) :
    (front ++ back).Declares owner (before ++ after) where
  subroutines := by
    rw [List.filterMap_append, hfront.subroutines, hback.subroutines,
      subroutines_append]
  all := by
    rw [subroutines_append, List.length_append, hfront.all, hback.all,
      entries_append, List.count_append]

/-- A rule other than a declaration of a subroutine adds nothing. -/
theorem node {rule : Rule} {inside : Forest}
    (h : inside.Declares owner notes) (hrule : rule ≠ .subroutineDec) :
    (Forest.node rule inside .nil).Declares owner notes := by
  have hsame : (Forest.node rule inside .nil).subroutines owner
      = inside.subroutines owner := by
    rw [Forest.subroutines, Forest.subroutines, List.append_nil]
    exact hrule
  refine ⟨h.subroutines.trans hsame.symm, ?_⟩
  rw [hsame, h.all, entries, entries]
  simp [hrule]

/-- A declaration of a subroutine adds its own record, if there is none
inside it. -/
theorem declaration {inside : Forest} {declared : Subroutine}
    (h : inside.subroutine? owner = some declared)
    (hnotes : notes.filterMap Note.subroutine? = [declared])
    (hnone : inside.entries.count (.enter .subroutineDec) = 0) :
    (Forest.node .subroutineDec inside .nil).Declares owner notes := by
  have hone : (Forest.node .subroutineDec inside .nil).subroutines owner
      = [declared] := by
    rw [Forest.subroutines, Forest.subroutines, h]
    rfl
  refine ⟨hnotes.trans hone.symm, ?_⟩
  rw [hone, entries, entries, List.count_cons_self, List.count_append, hnone]
  rfl

end Declares

end JackSyntax.Forest
