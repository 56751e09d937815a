/-
Hosts: what the command asks of the system that it runs on. The command
is written once over any host, so it can run on a real system and on a
tree of files that is only a value.
-/
import JackSyntax.Command.FileTree

namespace JackSyntax.Command

/-- What a path can lead to. -/
inductive NodeKind
  | directory | file
  deriving DecidableEq, Repr

def Node.kind : Node → NodeKind
  | .directory => .directory
  | .file _ => .file

/-- The operations of a host. -/
class Host (m : Type → Type) where
  /-- What a path leads to, if to anything. -/
  kind? (path : String) : m (Option NodeKind)
  /-- The names in a directory, in no particular order. -/
  list (path : String) : m (Except Fault (List String))
  /-- The text of a file. -/
  read (path : String) : m (Except Fault String)
  /-- Replaces the text of a file, which need not exist. -/
  write (path text : String) : m (Except Fault Unit)
  /-- Makes a directory where there is nothing yet. -/
  makeDirectory (path : String) : m (Except Fault Unit)
  /-- Prints a result. -/
  print (text : String) : m Unit
  /-- Prints a report for the user. -/
  report (text : String) : m Unit
  /-- How long the command has run, in words. -/
  elapsed : m String

-- ================================================== a host as a value

/-- A tree of files and what has been printed. -/
structure Machine where
  tree : FileTree
  printed : String
  reported : String
  /-- How long everything takes. -/
  elapsed : String

namespace Machine

/-- An operation that only looks at the tree. -/
def look {α : Type} (operation : FileTree → α) : StateM Machine α :=
  fun machine => (operation machine.tree, machine)

/-- An operation that changes the tree if it succeeds. -/
def change (operation : FileTree → Except Fault FileTree) :
    StateM Machine (Except Fault Unit) := fun machine =>
  match operation machine.tree with
  | .ok tree => (.ok (), { machine with tree := tree })
  | .error fault => (.error fault, machine)

instance : Host (StateM Machine) where
  kind? path := look fun tree => (tree.find? path).map Node.kind
  list path := look (·.list path)
  read path := look (·.read path)
  write path text := change (·.write path text)
  makeDirectory path := change (·.makeDirectory path)
  print text := modify fun machine =>
    { machine with printed := machine.printed ++ text }
  report text := modify fun machine =>
    { machine with reported := machine.reported ++ text }
  elapsed := return (← get).elapsed

end Machine

end JackSyntax.Command
