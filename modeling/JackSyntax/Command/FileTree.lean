/-
File trees: directories and files below one root, which is also the
working directory. Nothing is above the root.

A tree is a list of its nodes by location, and what matters about it is
what each location holds (`at?`). A node goes in at a location and
changes nothing elsewhere (`at?_put_of_ne`). Paths are walked name by
name, and every step starts from a directory.
-/
import JackSyntax.Command.Fault
import JackSyntax.Command.Path

namespace JackSyntax.Command

/-- The names from a node up to the root, its own name first. -/
abbrev Location := List String

/-- What a location can hold. -/
inductive Node
  | directory
  | file (content : Array UInt8)
  deriving DecidableEq

structure FileTree where
  entries : List (Location × Node)

namespace FileTree

-- ====================================================== the view

/-- What is at a location. The root is a directory. -/
def at? (tree : FileTree) : Location → Option Node
  | [] => some .directory
  | location => tree.entries.lookup location

/-- The tree with a node put at a location, whatever was there. -/
def put (tree : FileTree) (location : Location) (node : Node) :
    FileTree :=
  ⟨(location, node) :: tree.entries.filter (·.1 != location)⟩

/-- The names in a directory, in no particular order. -/
def names (tree : FileTree) (directory : Location) : List String :=
  tree.entries.filterMap fun (location, _) =>
    match location with
    | [] => none
    | name :: parent => if parent = directory then some name else none

/-- The tree with directories made at a location and on the way to it,
where there is nothing. -/
def withDirectories (tree : FileTree) : Location → FileTree
  | [] => tree
  | name :: parent =>
    let tree := tree.withDirectories parent
    if (tree.at? (name :: parent)).isSome then tree
    else tree.put (name :: parent) .directory

/-- The tree with a node put at the end of a path of plain names, and
with the directories on the way. -/
def plant (tree : FileTree) (path : String) (node : Node) : FileTree :=
  let names := (Path.pieces path).filter fun name =>
    name != "" && name != "."
  match names.reverse with
  | [] => tree
  | name :: parent =>
    (tree.withDirectories parent).put (name :: parent) node

/-- A node is where it was put. -/
theorem at?_put_self (tree : FileTree) (name : String)
    (parent : Location) (node : Node) :
    (tree.put (name :: parent) node).at? (name :: parent)
      = some node :=
  List.lookup_cons_self

/-- Leaving out the entries of one location loses no other. -/
private theorem lookup_filter_of_ne {location other : Location}
    (entries : List (Location × Node)) (h : other ≠ location) :
    (entries.filter (·.1 != location)).lookup other
      = entries.lookup other := by
  induction entries with
  | nil => rfl
  | cons first rest ih =>
    obtain ⟨key, node⟩ := first
    rw [List.filter_cons]
    by_cases hkey : key = location
    · have hother : (other == key) = false := by
        rw [beq_eq_false_iff_ne, hkey]
        exact h
      have hout : (key != location) = false := by
        rw [hkey]
        exact bne_self_eq_false location
      rw [hout, if_neg Bool.false_ne_true, List.lookup_cons, hother]
      exact ih
    · have hin : (key != location) = true := bne_iff_ne.2 hkey
      rw [hin, if_pos rfl, List.lookup_cons, List.lookup_cons, ih]

/-- Putting a node at one location changes no other. -/
theorem at?_put_of_ne (tree : FileTree) {location other : Location}
    (node : Node) (h : other ≠ location) :
    (tree.put location node).at? other = tree.at? other := by
  cases other with
  | nil => rfl
  | cons name parent =>
    have hne : ((name :: parent) == location) = false :=
      beq_eq_false_iff_ne.2 h
    change List.lookup (name :: parent) ((location, node) :: _) = _
    rw [List.lookup_cons, hne]
    exact lookup_filter_of_ne tree.entries h

-- ========================================================== walking

/-- The longest name that a directory can hold, in bytes of UTF-8. -/
def longestName : Nat := 255

/-- One name further. The step must start from a directory, and nothing
is above the root. -/
def step (tree : FileTree) (location : Location) (name : String) :
    Except Fault Location :=
  match tree.at? location with
  | none => .error .missing
  | some (.file _) => .error .notDirectory
  | some .directory =>
    if name = "" ∨ name = "." then .ok location
    else if name = ".." then
      match location with
      | [] => .error .missing
      | _ :: parent => .ok parent
    else if longestName < name.utf8ByteSize then .error .nameTooLong
    else .ok (name :: location)

/-- The longest path that can be looked up, in bytes of UTF-8. -/
def longestPath : Nat := 4095

/-- A path can be looked up if it starts from the root of the tree, which
an empty or absolute path does not, and is not too long. -/
def checkPath (path : String) : Except Fault Unit :=
  if path = "" ∨ path.toList.head? = some '/' then .error .missing
  else if longestPath < path.utf8ByteSize then .error .nameTooLong
  else .ok ()

/-- Where a path leads. There need be nothing at its end, but there must
be directories all the way to it. -/
def walk (tree : FileTree) (path : String) : Except Fault Location := do
  checkPath path
  (Path.pieces path).foldlM tree.step []

-- ======================================================== operations

/-- What a path leads to. -/
def find? (tree : FileTree) (path : String) : Option Node :=
  match tree.walk path with
  | .ok location => tree.at? location
  | .error _ => none

/-- The names in the directory that a path leads to. -/
def list (tree : FileTree) (path : String) :
    Except Fault (List String) := do
  let location ← tree.walk path
  match tree.at? location with
  | none => throw .missing
  | some (.file _) => throw .notDirectory
  | some .directory => return tree.names location

/-- The text of the file that a path leads to. -/
def read (tree : FileTree) (path : String) : Except Fault String := do
  let location ← tree.walk path
  match tree.at? location with
  | none => throw .missing
  | some .directory => throw .isDirectory
  | some (.file content) =>
    match String.fromUTF8? ⟨content⟩ with
    | some text => return text
    | none => throw .invalidText

/-- The tree with a text in the file that a path leads to. The file need
not be there, and what it held is replaced. -/
def write (tree : FileTree) (path text : String) :
    Except Fault FileTree := do
  let location ← tree.walk path
  match tree.at? location with
  | some .directory => throw .isDirectory
  | _ => return tree.put location (.file text.toUTF8.data)

/-- The path without the slashes at its end. -/
def withoutSlashes (path : String) : String :=
  String.ofList (Text.trimEnd (· == '/') path.toList)

/-- The tree with a directory at the end of a path, where there must be
nothing as yet. Slashes at the end count for the length alone. -/
def makeDirectory (tree : FileTree) (path : String) :
    Except Fault FileTree := do
  checkPath path
  let location ← tree.walk (withoutSlashes path)
  match tree.at? location with
  | some _ => throw .exists
  | none => return tree.put location .directory

-- ============================================================ changes

/-- A location as a path from the root. -/
def pathOf (location : Location) : String :=
  "/".intercalate location.reverse

/-- What is different in a later tree: each file that is new or has
other content, with its text, and each directory that is new, with a
slash after its path, by increasing path. -/
def changes (before after : FileTree) :
    List (String × Option String) :=
  let changed := after.entries.filterMap fun (location, node) =>
    if before.at? location = some node then none
    else match node with
      | .directory => some (pathOf location ++ "/", none)
      | .file content =>
        some (pathOf location, some ((String.fromUTF8? ⟨content⟩).getD ""))
  changed.mergeSort fun first second => first.1 ≤ second.1

end FileTree

end JackSyntax.Command
