/-
Where paths lead while a tree changes. A path is walked from directory to
directory (`step_eq_ok`), so it leads to the same place for as long as no
directory is lost, and its last name is the name of the file that it leads
to (`eq_name_cons_of_walk`).

Whatever a command does to a tree spares what it has not written
(`Spares`): directories stay, files stay, and what a file holds changes
only where a path that was written leads to. This is kept along a run, as
it holds of every single operation.
-/
import JackSyntax.Command.FileTree
import JackSyntax.Proofs.Command.Paths

namespace JackSyntax.Command.FileTree

variable {tree before after : FileTree} {location : Location}
  {path text : String}

/-- What goes well is made of parts that go well. -/
theorem bind_eq_ok_iff {α β : Type} {first : Except Fault α}
    {next : α → Except Fault β} {value : β} :
    (first >>= next) = .ok value
      ↔ ∃ middle, first = .ok middle ∧ next middle = .ok value := by
  cases first with
  | error fault => exact ⟨nofun, fun ⟨_, h, _⟩ => nomatch h⟩
  | ok middle =>
    refine ⟨fun h => ⟨middle, rfl, h⟩, ?_⟩
    rintro ⟨_, ⟨⟩, h⟩
    exact h

-- ============================================================ directories

/-- A step starts from a directory. -/
theorem at?_of_step_eq_ok {name : String} {next : Location}
    (h : tree.step location name = .ok next) :
    tree.at? location = some .directory := by
  unfold step at h
  split at h
  · cases h
  · cases h
  · assumption

/-- Where a step from a directory goes does not depend on the tree. -/
theorem step_eq_step (hbefore : before.at? location = some .directory)
    (hafter : after.at? location = some .directory) (name : String) :
    after.step location name = before.step location name := by
  unfold step
  rw [hbefore, hafter]

/-- A step goes nowhere, up, or down to the name. -/
theorem step_eq_ok {name : String} {next : Location}
    (h : tree.step location name = .ok next) :
    next = location ∨ (∃ last, location = last :: next)
      ∨ next = name :: location := by
  have hdirectory := at?_of_step_eq_ok h
  unfold step at h
  rw [hdirectory] at h
  simp only at h
  split at h
  · cases h
    exact .inl rfl
  · split at h
    · split at h
      · cases h
      · cases h
        exact .inr (.inl ⟨_, rfl⟩)
    · split at h
      · cases h
      · cases h
        exact .inr (.inr rfl)

/-- Whatever a place is in is a directory. -/
def IsOpen (tree : FileTree) (location : Location) : Prop :=
  ∀ above, above <:+ location → above ≠ location →
    tree.at? above = some .directory

theorem isOpen_nil (tree : FileTree) : tree.IsOpen [] := by
  intro above habove hne
  exact absurd (List.suffix_nil.1 habove) hne

theorem IsOpen.step {name : String} {next : Location}
    (h : tree.IsOpen location) (hstep : tree.step location name = .ok next) :
    tree.IsOpen next := by
  rcases step_eq_ok hstep with rfl | ⟨last, rfl⟩ | rfl
  · exact h
  · intro above habove hne
    refine h above (habove.trans (List.suffix_cons last next)) fun heq => ?_
    have hlength := habove.length_le
    rw [heq, List.length_cons] at hlength
    omega
  · intro above habove hne
    rcases List.suffix_cons_iff.1 habove with heq | hin
    · exact absurd heq hne
    · by_cases heq : above = location
      · rw [heq]
        exact at?_of_step_eq_ok hstep
      · exact h above hin heq

theorem IsOpen.steps {names : List String} {last : Location}
    (h : tree.IsOpen location)
    (hsteps : names.foldlM tree.step location = .ok last) :
    tree.IsOpen last := by
  induction names generalizing location with
  | nil =>
    cases hsteps
    exact h
  | cons name names ih =>
    rw [List.foldlM_cons, bind_eq_ok_iff] at hsteps
    obtain ⟨next, hstep, hsteps⟩ := hsteps
    exact ih (h.step hstep) hsteps

-- ================================================================= walks

theorem walk_eq_ok_iff : tree.walk path = .ok location
    ↔ checkPath path = .ok ()
      ∧ (Path.pieces path).foldlM tree.step [] = .ok location := by
  rw [walk, bind_eq_ok_iff]
  exact ⟨fun ⟨_, hcheck, hsteps⟩ => ⟨hcheck, hsteps⟩,
    fun ⟨hcheck, hsteps⟩ => ⟨_, hcheck, hsteps⟩⟩

/-- The last step of a walk is that to the name of the path. -/
theorem exists_step_of_walk (h : tree.walk path = .ok location) :
    ∃ parent, tree.IsOpen parent
      ∧ tree.step parent (Path.name path) = .ok location := by
  obtain ⟨-, hsteps⟩ := walk_eq_ok_iff.1 h
  rw [Path.pieces_eq, List.foldlM_append, bind_eq_ok_iff] at hsteps
  obtain ⟨parent, hfront, hlast⟩ := hsteps
  rw [List.foldlM_cons, bind_eq_ok_iff] at hlast
  obtain ⟨_, hstep, ⟨⟩⟩ := hlast
  exact ⟨parent, (isOpen_nil tree).steps hfront, hstep⟩

/-- A path that does not lead to a directory leads to its name. -/
theorem eq_name_cons_of_walk (h : tree.walk path = .ok location)
    (hfile : tree.at? location ≠ some .directory) :
    ∃ parent, location = Path.name path :: parent := by
  obtain ⟨parent, hopen, hstep⟩ := exists_step_of_walk h
  have hparent := at?_of_step_eq_ok hstep
  rcases step_eq_ok hstep with rfl | ⟨last, rfl⟩ | rfl
  · exact absurd hparent hfile
  · exact absurd (hopen location (List.suffix_cons _ _)
      (List.cons_ne_self _ _).symm) hfile
  · exact ⟨parent, rfl⟩

/-- A walk stays as it is if no directory is lost. -/
theorem walk_of_directories
    (h : ∀ {place}, before.at? place = some .directory →
      after.at? place = some .directory)
    (hwalk : before.walk path = .ok location) :
    after.walk path = .ok location := by
  have hsteps : ∀ {names : List String} {start last : Location},
      names.foldlM before.step start = .ok last →
        names.foldlM after.step start = .ok last := by
    intro names
    induction names with
    | nil => exact id
    | cons name names ih =>
      intro start last hsteps
      rw [List.foldlM_cons, bind_eq_ok_iff] at hsteps ⊢
      obtain ⟨next, hstep, hsteps⟩ := hsteps
      have hdirectory := at?_of_step_eq_ok hstep
      refine ⟨next, ?_, ih hsteps⟩
      rw [step_eq_step hdirectory (h hdirectory), hstep]
  rw [walk_eq_ok_iff] at hwalk ⊢
  exact ⟨hwalk.1, hsteps hwalk.2⟩

/-- Paths to the same file have the same name. -/
theorem name_eq_of_walk {first second : String}
    (hfirst : tree.walk first = .ok location)
    (hsecond : tree.walk second = .ok location)
    (hfile : tree.at? location ≠ some .directory) :
    Path.name first = Path.name second := by
  obtain ⟨parent, hlocation⟩ := eq_name_cons_of_walk hfirst hfile
  obtain ⟨other, hother⟩ := eq_name_cons_of_walk hsecond hfile
  exact List.head_eq_of_cons_eq (hlocation.symm.trans hother)

-- ====================================================== single changes

/-- A path leads to a file if the walk along it ends at one. -/
theorem find?_eq_some_iff {node : Node} : tree.find? path = some node
    ↔ ∃ location, tree.walk path = .ok location
      ∧ tree.at? location = some node := by
  unfold find?
  cases tree.walk path with
  | error fault => exact ⟨nofun, fun ⟨_, h, _⟩ => nomatch h⟩
  | ok location =>
    refine ⟨fun h => ⟨location, rfl, h⟩, ?_⟩
    rintro ⟨_, ⟨⟩, h⟩
    exact h

theorem fromUTF8?_eq_some_iff {content : Array UInt8} :
    String.fromUTF8? ⟨content⟩ = some text ↔ content = text.toUTF8.data := by
  unfold String.fromUTF8?
  split
  · rw [Option.some_inj, ← String.toByteArray_inj]
    exact ⟨congrArg ByteArray.data, ByteArray.ext⟩
  · rename_i hinvalid
    refine ⟨nofun, ?_⟩
    rintro rfl
    exact absurd text.isValidUTF8 hinvalid

/-- What is read is the text of a file. -/
theorem read_eq_ok_iff : tree.read path = .ok text
    ↔ tree.find? path = some (.file text.toUTF8.data) := by
  rw [read, bind_eq_ok_iff, find?_eq_some_iff]
  refine exists_congr fun location => and_congr_right fun _ => ?_
  cases tree.at? location with
  | none => exact ⟨nofun, nofun⟩
  | some node =>
    cases node with
    | directory => exact ⟨nofun, nofun⟩
    | file content =>
      simp only
      rw [Option.some_inj, Node.file.injEq, ← fromUTF8?_eq_some_iff]
      split
      · rename_i found
        rw [found, Option.some_inj]
        exact ⟨Except.ok.inj, congrArg _⟩
      · rename_i found
        rw [found]
        exact ⟨nofun, nofun⟩

theorem ne_nil_of_at? (h : tree.at? location ≠ some .directory) :
    location ≠ [] := by
  rintro rfl
  exact h rfl

/-- A tree after a node was put into it. -/
theorem at?_put (h : location ≠ []) (node : Node) (other : Location) :
    (tree.put location node).at? other
      = if other = location then some node else tree.at? other := by
  obtain ⟨name, parent, rfl⟩ := List.exists_cons_of_ne_nil h
  split
  · rename_i heq
    rw [heq]
    exact at?_put_self tree name parent node
  · rename_i hne
    exact at?_put_of_ne tree node hne

/-- A write puts a file where its path leads, if not to a directory. -/
theorem exists_of_write (h : tree.write path text = .ok after) :
    ∃ location, tree.walk path = .ok location
      ∧ tree.at? location ≠ some .directory
      ∧ after = tree.put location (.file text.toUTF8.data) := by
  rw [write, bind_eq_ok_iff] at h
  obtain ⟨location, hwalk, h⟩ := h
  refine ⟨location, hwalk, ?_⟩
  split at h
  · cases h
  · rename_i hother
    cases h
    exact ⟨hother, rfl⟩

/-- A directory is made where there is nothing. -/
theorem exists_of_makeDirectory (h : tree.makeDirectory path = .ok after) :
    ∃ location, tree.at? location = none
      ∧ after = tree.put location .directory := by
  rw [makeDirectory, bind_eq_ok_iff] at h
  obtain ⟨_, -, h⟩ := h
  rw [bind_eq_ok_iff] at h
  obtain ⟨location, -, h⟩ := h
  refine ⟨location, ?_⟩
  split at h
  · cases h
  · rename_i hnone
    cases h
    exact ⟨hnone, rfl⟩

/-- A write loses no directory. -/
theorem directories_of_write (h : tree.write path text = .ok after)
    (hplace : tree.at? location = some .directory) :
    after.at? location = some .directory := by
  obtain ⟨target, -, hfile, rfl⟩ := exists_of_write h
  have hdiffer : location ≠ target := by
    rintro rfl
    exact hfile hplace
  rw [at?_put (ne_nil_of_at? hfile), if_neg hdiffer, hplace]

/-- A later tree has the directories and the files of an earlier one, and
a file holds something else only if a path that was written leads to it. -/
structure Spares (written : String → Prop) (before after : FileTree) :
    Prop where
  directories {location : Location} :
    before.at? location = some .directory →
      after.at? location = some .directory
  files {location : Location} {content : Array UInt8} :
    before.at? location = some (.file content) →
      ∃ current, after.at? location = some (.file current)
        ∧ (current = content
          ∨ ∃ path, written path ∧ after.walk path = .ok location)

namespace Spares

variable {written : String → Prop} {middle : FileTree}

/-- A path leads to where it has led. -/
theorem walk (h : Spares written before after)
    (hwalk : before.walk path = .ok location) :
    after.walk path = .ok location :=
  walk_of_directories h.directories hwalk

theorem refl (tree : FileTree) : Spares written tree tree :=
  ⟨id, fun h => ⟨_, h, .inl rfl⟩⟩

theorem trans (hfirst : Spares written before middle)
    (hsecond : Spares written middle after) :
    Spares written before after where
  directories h := hsecond.directories (hfirst.directories h)
  files h := by
    obtain ⟨between, hmiddle, hbetween⟩ := hfirst.files h
    obtain ⟨current, hafter, hcurrent⟩ := hsecond.files hmiddle
    refine ⟨current, hafter, ?_⟩
    rcases hcurrent with rfl | hwritten
    · rcases hbetween with rfl | ⟨path, hpath, hwalk⟩
      · exact .inl rfl
      · exact .inr ⟨path, hpath, hsecond.walk hwalk⟩
    · exact .inr hwritten

theorem mono {more : String → Prop} (h : Spares written before after)
    (hmore : ∀ path, written path → more path) :
    Spares more before after where
  directories := h.directories
  files hfile := by
    obtain ⟨current, hafter, hcurrent⟩ := h.files hfile
    refine ⟨current, hafter, hcurrent.imp_right ?_⟩
    rintro ⟨path, hpath, hwalk⟩
    exact ⟨path, hmore path hpath, hwalk⟩

theorem of_makeDirectory (h : before.makeDirectory path = .ok after) :
    Spares written before after := by
  obtain ⟨location, hnone, rfl⟩ := exists_of_makeDirectory h
  have hfree : before.at? location ≠ some .directory := by
    rw [hnone]
    exact nofun
  have hne := ne_nil_of_at? hfree
  constructor
  · intro other hother
    rw [at?_put hne]
    split
    · rfl
    · exact hother
  · intro other content hother
    have hdiffer : other ≠ location := by
      rintro rfl
      rw [hnone] at hother
      cases hother
    refine ⟨content, ?_, .inl rfl⟩
    rw [at?_put hne, if_neg hdiffer]
    exact hother

theorem of_write (h : before.write path text = .ok after)
    (hpath : written path) : Spares written before after where
  directories := directories_of_write h
  files := by
    intro other content hother
    obtain ⟨location, hwalk, hfile, rfl⟩ := exists_of_write h
    rw [at?_put (ne_nil_of_at? hfile)]
    split
    · rename_i heq
      refine ⟨_, rfl, .inr ⟨path, hpath, ?_⟩⟩
      rw [heq]
      exact walk_of_directories (directories_of_write h) hwalk
    · exact ⟨content, hother, .inl rfl⟩

/-- What a path leads to is as before, or a path of the same name was
written that leads there too. -/
theorem find? (h : Spares written before after) {content : Array UInt8}
    (hfile : before.find? path = some (.file content)) :
    after.find? path = some (.file content)
      ∨ ∃ other, written other ∧ Path.name other = Path.name path
          ∧ after.walk other = after.walk path := by
  obtain ⟨location, hwalk, hcontent⟩ := find?_eq_some_iff.1 hfile
  obtain ⟨current, hafter, hcurrent⟩ := h.files hcontent
  have hpath := h.walk hwalk
  rcases hcurrent with rfl | ⟨other, hother, hsame⟩
  · exact .inl (find?_eq_some_iff.2 ⟨location, hpath, hafter⟩)
  · refine .inr ⟨other, hother, name_eq_of_walk hsame hpath ?_,
      hsame.trans hpath.symm⟩
    rw [hafter]
    exact nofun

/-- A text is read again if no path of the name was written. -/
theorem read (h : Spares written before after)
    (hread : before.read path = .ok text)
    (hnames : ∀ other, written other → Path.name other ≠ Path.name path) :
    after.read path = .ok text := by
  rw [read_eq_ok_iff] at hread ⊢
  rcases h.find? hread with hsame | ⟨other, hother, hname, -⟩
  · exact hsame
  · exact absurd hname (hnames other hother)

end Spares

-- ================================================================ names

/-- No name holds a slash, so every place has a path. -/
def IsPlain (tree : FileTree) : Prop :=
  ∀ entry ∈ tree.entries, ∀ name ∈ entry.1, '/' ∉ name.toList

theorem IsPlain.put (h : tree.IsPlain)
    (hlocation : ∀ name ∈ location, '/' ∉ name.toList) (node : Node) :
    (tree.put location node).IsPlain := by
  intro entry hentry
  rcases List.mem_cons.1 hentry with rfl | hentry
  · exact hlocation
  · exact h entry (List.mem_filter.1 hentry).1

theorem IsPlain.withDirectories (h : tree.IsPlain)
    (hlocation : ∀ name ∈ location, '/' ∉ name.toList) :
    (tree.withDirectories location).IsPlain := by
  induction location with
  | nil => exact h
  | cons name parent ih =>
    have hparent := ih fun other hother =>
      hlocation other (List.mem_cons_of_mem _ hother)
    unfold FileTree.withDirectories
    simp only
    split
    · exact hparent
    · exact hparent.put hlocation .directory

/-- What is planted has the pieces of its path for names. -/
theorem IsPlain.plant (h : tree.IsPlain) (path : String) (node : Node) :
    (tree.plant path node).IsPlain := by
  unfold FileTree.plant
  simp only
  split
  · exact h
  · rename_i name parent hnames
    have hpieces : ∀ other ∈ name :: parent, '/' ∉ other.toList := by
      rw [← hnames]
      intro other hother
      rw [List.mem_reverse] at hother
      exact Path.slash_not_mem_of_mem_pieces (List.mem_filter.1 hother).1
    refine (h.withDirectories fun other hother => ?_).put hpieces node
    exact hpieces other (List.mem_cons_of_mem _ hother)

end JackSyntax.Command.FileTree
