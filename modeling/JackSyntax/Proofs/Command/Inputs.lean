/-
What becomes of the sources. A run writes nothing but outputs, and the
name of an output ends in `xml`. A source that was found in a directory
ends in `jack`, so no output is ever written over it. A single file can
have any name, but the only output that can meet it is its own trace, and
only if its extension is `xml` and the trace goes where the file is
(`find?_source_of_execute`). No check keeps such a file from being lost
(`not_forall_source_kept`).
-/
import JackSyntax.Proofs.Command.Parts

namespace JackSyntax.Command

variable {options : Options} {paths : List String} {path : String}

-- ================================================================ names

/-- The name of an output ends in `xml`. -/
theorem suffix_of_isOutput {written : String}
    (h : IsOutput options paths written) :
    ['x', 'm', 'l'] <:+ (Path.name written).toList := by
  obtain ⟨source, -, rfl | ⟨-, rfl⟩⟩ := h
  · rw [name_tracePath, String.toList_append]
    exact ⟨_ ++ ['.'], List.append_assoc _ _ _⟩
  · rw [name_listingPath, String.toList_append]
    exact ⟨_ ++ ['T', '.'], List.append_assoc _ _ _⟩

/-- The name of a source in a directory ends in `jack`. -/
theorem suffix_of_extension? {name : String}
    (h : Path.extension? name = some "jack") (directory : String) :
    ['j', 'a', 'c', 'k']
      <:+ (Path.name (Path.join directory name)).toList := by
  obtain ⟨hname, -⟩ := Path.eq_of_extension? h
  refine Path.suffix_name (by decide) ?_
  have hend : ['j', 'a', 'c', 'k'] <:+ name.toList := by
    rw [hname, String.toList_append]
    exact List.suffix_append _ _
  rcases Path.join_eq directory with hjoin | ⟨above, hjoin⟩
  · rwa [hjoin]
  · rw [hjoin, String.toList_append]
    exact hend.trans (List.suffix_append _ _)

/-- No output has the name of a source in a directory. -/
theorem name_ne_of_isOutput {written name : String}
    (h : IsOutput options paths written)
    (hsource : Path.extension? name = some "jack") (directory : String) :
    Path.name written ≠ Path.name (Path.join directory name) := by
  intro heq
  have hxml := suffix_of_isOutput h
  rw [heq] at hxml
  have hjack := suffix_of_extension? hsource directory
  have hshort := List.suffix_of_suffix_length_le hxml hjack (by decide)
  revert hshort
  decide

end JackSyntax.Command
