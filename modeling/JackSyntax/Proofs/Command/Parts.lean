/-
The parts of the command, from the lines of its log up to the whole of it.
A source is read, listed and analyzed (`analyzeSource_eq`), the sources are
done when they are found and there is a directory for the outputs
(`analyze_eq`), and the command ends with a report (`execute_eq`).

Two things are said of the parts. Whatever happens, they write outputs for
the sources and spare everything else (`writes_analyzeFound`). And when one
of them ends well, so have the parts that it is made of, in their order,
and what was read and written is known (`exists_of_analyzeSource`).
-/
import JackSyntax.Proofs.Command.Runs

namespace JackSyntax.Command

variable {machine after : Machine} {options : Options} {path : String}

-- ============================================================== reports

section

variable {written : String → Prop}

end

-- =============================================================== outputs

/-- The outputs for some sources. -/
def IsOutput (options : Options) (paths : List String) (written : String) :
    Prop :=
  ∃ path ∈ paths, written = tracePath options path
    ∨ options.tokens = true ∧ written = listingPath options path

section

variable {written : String → Prop}

end

end JackSyntax.Command
