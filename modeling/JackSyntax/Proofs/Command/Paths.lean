/-
What the names of outputs look like. The text of a path is cut into
pieces, and an entry joined to a directory is the last of them
(`pieces_join`), so its name is what was joined (`name_join`). A name with
an extension is its stem, a dot and the extension, and is taken apart
where it was put together (`extension?_eq_some_iff`).

So the name of a trace ends in `.xml` after the stem of its source, and
the name of a listing has a `T` between the two. Nothing here depends on
what the paths lead to.
-/
import JackSyntax.Command.Analyze
import JackSyntax.Proofs.Text.Lines

namespace JackSyntax

/-- A piece does not hold the separator. -/
theorem Text.not_mem_of_mem_split {separator : Char}
    {text piece : List Char} (h : piece ∈ split separator text) :
    separator ∉ piece := by
  induction text generalizing piece with
  | nil =>
    rw [split, List.mem_singleton] at h
    rw [h]
    exact List.not_mem_nil
  | cons c cs ih =>
    by_cases hsep : c = separator
    · rw [split, if_pos hsep, List.mem_cons] at h
      rcases h with rfl | h
      · exact List.not_mem_nil
      · exact ih h
    · obtain ⟨pieces, hpieces⟩ := split_eq_cons separator cs
      rw [split, if_neg hsep, hpieces, List.mem_cons] at h
      rcases h with rfl | h
      · rw [List.mem_cons, not_or]
        refine ⟨Ne.symm hsep, ih ?_⟩
        rw [hpieces]
        exact List.mem_cons_self
      · apply ih
        rw [hpieces]
        exact List.mem_cons_of_mem _ h

namespace Command

namespace Path

variable {path directory entry : String}

-- =============================================================== pieces

theorem pieces_of_not_mem (h : '/' ∉ entry.toList) :
    pieces entry = [entry] := by
  rw [pieces, Text.split_of_not_mem h, List.map_singleton,
    String.ofList_toList]

theorem pieces_append_slash (path : String) (h : '/' ∉ entry.toList) :
    pieces (path ++ "/" ++ entry) = pieces path ++ [entry] := by
  have htext : (path ++ "/" ++ entry).toList
      = path.toList ++ '/' :: entry.toList := by simp
  rw [pieces, htext, Text.split_append_cons, Text.split_of_not_mem h,
    List.map_append, List.map_singleton, String.ofList_toList]
  rfl

/-- An entry is joined to nothing at all, or follows a slash. -/
theorem join_eq (directory : String) :
    (∀ entry, join directory entry = entry)
      ∨ ∃ above, ∀ entry, join directory entry = above ++ "/" ++ entry := by
  rcases List.eq_nil_or_concat directory.toList with hnil | ⟨text, c, htext⟩
  · refine .inl fun entry => ?_
    rw [String.toList_eq_nil_iff] at hnil
    rw [hnil]
    exact String.empty_append
  · have hlast : directory.toList.getLast? = some c := by
      rw [htext, List.concat_eq_append, List.getLast?_concat]
    by_cases hslash : c = '/'
    · subst hslash
      have hdirectory : directory = String.ofList text ++ "/" := by
        rw [← String.toList_inj, htext]
        simp
      refine .inr ⟨String.ofList text, fun entry => ?_⟩
      rw [join, hlast, ← hdirectory]
      rfl
    · refine .inr ⟨directory, fun entry => ?_⟩
      rw [join, hlast]
      split
      · rename_i heq
        cases heq
      · rename_i heq
        cases heq
        exact absurd rfl hslash
      · rfl

/-- What comes before the entries of a directory in their paths. -/
def front (directory : String) : List String :=
  (pieces (join directory "")).dropLast

/-- A joined entry is the last piece. -/
theorem pieces_join (directory : String) (h : '/' ∉ entry.toList) :
    pieces (join directory entry) = front directory ++ [entry] := by
  have hempty : '/' ∉ "".toList := List.not_mem_nil
  rw [front]
  rcases join_eq directory with hjoin | ⟨above, hjoin⟩
  · rw [hjoin, hjoin, pieces_of_not_mem h, pieces_of_not_mem hempty]
    rfl
  · rw [hjoin, hjoin, pieces_append_slash _ h, pieces_append_slash _ hempty,
      List.dropLast_concat]

/-- The name of a path is its last piece. -/
theorem pieces_eq (path : String) :
    pieces path = (pieces path).dropLast ++ [name path] := by
  have hne : pieces path ≠ [] := by
    rw [pieces, ne_eq, List.map_eq_nil_iff]
    exact Text.split_ne_nil _ _
  rw [name, List.getLast?_eq_some_getLast hne, Option.getD_some,
    List.dropLast_concat_getLast hne]

theorem slash_not_mem_of_mem_pieces (h : entry ∈ pieces path) :
    '/' ∉ entry.toList := by
  rw [pieces, List.mem_map] at h
  obtain ⟨piece, hpiece, rfl⟩ := h
  rw [String.toList_ofList]
  exact Text.not_mem_of_mem_split hpiece

theorem slash_not_mem_name (path : String) : '/' ∉ (name path).toList := by
  have hmem : name path ∈ pieces path := by
    rw [pieces_eq]
    exact List.mem_append_right _ List.mem_cons_self
  exact slash_not_mem_of_mem_pieces hmem

theorem name_of_pieces_eq {front : List String}
    (h : pieces path = front ++ [entry]) : name path = entry := by
  rw [name, h, List.getLast?_concat, Option.getD_some]

/-- The name of a joined entry is the entry. -/
theorem name_join (directory : String) (h : '/' ∉ entry.toList) :
    name (join directory entry) = entry :=
  name_of_pieces_eq (pieces_join directory h)

/-- A path is its name, or its name follows a slash. -/
theorem eq_append_name (path : String) :
    name path = path ∨ ∃ above, path = above ++ "/" ++ name path := by
  by_cases hslash : '/' ∈ path.toList.reverse
  · obtain ⟨after, before, hpath, hafter⟩ :=
      List.eq_append_cons_of_mem hslash
    have hentry : '/' ∉ (String.ofList after.reverse).toList := by
      rwa [String.toList_ofList, List.mem_reverse]
    have heq : path = String.ofList before.reverse ++ "/"
        ++ String.ofList after.reverse := by
      rw [← String.toList_inj, ← List.reverse_inj, hpath]
      simp
    have hpieces := pieces_append_slash (String.ofList before.reverse) hentry
    rw [← heq] at hpieces
    exact .inr ⟨_, by rwa [name_of_pieces_eq hpieces]⟩
  · rw [List.mem_reverse] at hslash
    have hpieces : pieces path = [] ++ [path] := pieces_of_not_mem hslash
    exact .inl (name_of_pieces_eq hpieces)

/-- A text without a slash at the end of a path is at the end of its
name. -/
theorem suffix_name {ending : List Char} (hslash : '/' ∉ ending)
    (h : ending <:+ path.toList) : ending <:+ (name path).toList := by
  rcases eq_append_name path with hname | ⟨above, hpath⟩
  · rwa [hname]
  · have hafter : '/' :: (name path).toList <:+ path.toList := by
      refine ⟨above.toList, ?_⟩
      conv => rhs; rw [hpath]
      simp
    rcases List.suffix_or_suffix_of_suffix h hafter with hin | hout
    · rcases List.suffix_cons_iff.1 hin with heq | hin
      · rw [heq] at hslash
        exact absurd List.mem_cons_self hslash
      · exact hin
    · exact absurd (hout.subset List.mem_cons_self) hslash

-- ==================================================== stem, extension

/-- The characters of a name with an extension, from the end. -/
theorem reverse_append_dot (stem extension : String) :
    (stem ++ "." ++ extension).toList.reverse
      = extension.toList.reverse ++ '.' :: stem.toList.reverse := by
  simp

/-- A name with an extension is made of the two. -/
theorem eq_of_stemAndExtension {entry stem extension : String}
    (h : stemAndExtension entry = (stem, some extension)) :
    entry = stem ++ "." ++ extension ∧ stem ≠ "" := by
  have hsplit := List.takeWhile_append_dropWhile
    (p := (· != '.')) (l := entry.toList.reverse)
  have hhead := List.head?_dropWhile_not (· != '.') entry.toList.reverse
  unfold stemAndExtension cutAtDot at h
  simp only at h
  split at h
  · cases h
  · cases h
  · rename_i c text hne hdrop
    rw [hdrop] at hsplit hhead
    obtain rfl : c = '.' := by simpa using hhead
    split at h
    · cases h
    · cases h
      constructor
      · rw [← String.toList_inj, ← List.reverse_inj, reverse_append_dot]
        simpa using hsplit.symm
      · rw [ne_eq, ← String.toList_eq_nil_iff, String.toList_ofList,
          List.reverse_eq_nil_iff]
        exact hne

theorem eq_of_extension? {entry extension : String}
    (h : extension? entry = some extension) :
    entry = stem entry ++ "." ++ extension ∧ stem entry ≠ "" :=
  eq_of_stemAndExtension (Prod.ext rfl h)

/-- A name without an extension is its own stem. -/
theorem stem_eq_of_extension?_eq_none {entry : String}
    (h : extension? entry = none) : stem entry = entry := by
  rw [extension?] at h
  rw [stem]
  unfold stemAndExtension cutAtDot at h ⊢
  simp only at h ⊢
  split at h
  · rfl
  · rfl
  · split at h
    · rename_i hdots
      rw [if_pos hdots]
    · cases h

theorem slash_not_mem_stem {entry : String} (h : '/' ∉ entry.toList) :
    '/' ∉ (stem entry).toList := by
  cases hfound : extension? entry with
  | none => rwa [stem_eq_of_extension?_eq_none hfound]
  | some found =>
    intro hmem
    rw [(eq_of_extension? hfound).1] at h
    exact h (by simp [hmem])

end Path

-- ============================================================== outputs

variable (options : Options) (path : String)

/-- The name of a trace. -/
theorem name_tracePath : Path.name (tracePath options path)
    = Path.stem (Path.name path) ++ ".xml" := by
  have hstem := Path.slash_not_mem_stem (Path.slash_not_mem_name path)
  exact Path.name_join _ (by simp [hstem])

/-- The name of a listing. -/
theorem name_listingPath : Path.name (listingPath options path)
    = Path.stem (Path.name path) ++ "T.xml" := by
  have hstem := Path.slash_not_mem_stem (Path.slash_not_mem_name path)
  exact Path.name_join _ (by simp [hstem])

end Command

end JackSyntax
