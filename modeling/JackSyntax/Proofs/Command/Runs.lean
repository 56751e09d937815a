/-
Actions on a machine. An action that may fail is run on a machine and
leaves another one (`Machine.run`); one action after another goes on where
the first has left off (`run_bind`).

What an action does to the tree is said by a relation of the tree before
it to the tree after it. If the relation goes on from one tree to the
next, then it holds of a whole when it holds of its parts
(`Relates.bind`). Two relations are of use: an action keeps the tree
(`KeepsTree`), or spares what it is not to write (`Writes`).
-/
import JackSyntax.Proofs.Command.Locations

namespace JackSyntax.Command

/-- Results can be compared, so runs can be evaluated. -/
instance decidableEqExcept {ε α : Type} [DecidableEq ε] [DecidableEq α] :
    DecidableEq (Except ε α)
  | .ok first, .ok second =>
    decidable_of_iff (first = second) ⟨congrArg _, Except.ok.inj⟩
  | .error first, .error second =>
    decidable_of_iff (first = second) ⟨congrArg _, Except.error.inj⟩
  | .ok _, .error _ => isFalse nofun
  | .error _, .ok _ => isFalse nofun

/-- What is done on a machine, where a failure is the end of it. -/
abbrev Action (α : Type) : Type := ExceptT Failure (StateM Machine) α

variable {α β : Type} {machine after : Machine}

-- ============================================================ in general

namespace Machine

/-- The result of an action on a machine, and the machine after it. -/
def run (machine : Machine) (action : Action α) :
    Except Failure α × Machine :=
  StateT.run (ExceptT.run action) machine

/-- One action after another. -/
theorem run_bind (machine : Machine) (action : Action α)
    (next : α → Action β) :
    machine.run (action >>= next) = match machine.run action with
      | (.ok value, middle) => middle.run (next value)
      | (.error failure, middle) => (.error failure, middle) := by
  unfold run ExceptT.run StateT.run
  simp only [bind, ExceptT.bind, ExceptT.mk, StateT.bind, ExceptT.bindCont]
  cases action machine with
  | mk result middle => cases result <;> rfl

/-- What an operation that can change the tree leaves. -/
theorem run_change (machine : Machine)
    (operation : FileTree → Except Fault FileTree) :
    machine.run (ExceptT.lift (change operation))
      = match operation machine.tree with
        | .ok tree => (.ok (.ok ()), { machine with tree := tree })
        | .error fault => (.ok (.error fault), machine) := by
  unfold run ExceptT.run StateT.run
  simp only [ExceptT.lift, ExceptT.mk, Functor.map, StateT.map, change, bind]
  cases operation machine.tree <;> rfl

theorem run_write (machine : Machine) (path text : String) :
    machine.run (Host.write path text)
      = match machine.tree.write path text with
        | .ok tree => (.ok (.ok ()), { machine with tree := tree })
        | .error fault => (.ok (.error fault), machine) :=
  run_change machine (·.write path text)

theorem run_makeDirectory (machine : Machine) (path : String) :
    machine.run (Host.makeDirectory path)
      = match machine.tree.makeDirectory path with
        | .ok tree => (.ok (.ok ()), { machine with tree := tree })
        | .error fault => (.ok (.error fault), machine) :=
  run_change machine (·.makeDirectory path)

end Machine

/-- Whatever the machine, the tree after the action is so related to the
tree before it. -/
def Relates (relation : FileTree → FileTree → Prop) (action : Action α) :
    Prop :=
  ∀ machine : Machine, relation machine.tree (machine.run action).2.tree

/-- The action looks at the tree and reports, no more. -/
def KeepsTree (action : Action α) : Prop :=
  Relates (fun before after => after = before) action

/-- The action spares all files but those that it may write. -/
def Writes (written : String → Prop) (action : Action α) : Prop :=
  Relates (FileTree.Spares written) action

/-- A relation that goes on from one tree to the next holds of a whole if
it holds of both parts. -/
theorem Relates.bind {relation : FileTree → FileTree → Prop}
    (htrans : ∀ {first second third}, relation first second →
      relation second third → relation first third)
    {action : Action α} {next : α → Action β} (h : Relates relation action)
    (hnext : ∀ value, Relates relation (next value)) :
    Relates relation (action >>= next) := by
  intro machine
  have hfirst := h machine
  rw [Machine.run_bind]
  split
  · rename_i value middle hrun
    rw [hrun] at hfirst
    exact htrans hfirst (hnext value middle)
  · rename_i failure middle hrun
    rw [hrun] at hfirst
    exact hfirst

theorem KeepsTree.bind {action : Action α} {next : α → Action β}
    (h : KeepsTree action) (hnext : ∀ value, KeepsTree (next value)) :
    KeepsTree (action >>= next) :=
  Relates.bind (fun hfirst hsecond => hsecond.trans hfirst) h hnext

namespace Writes

variable {written : String → Prop} {action : Action α}

theorem of_keepsTree (h : KeepsTree action) : Writes written action := by
  intro machine
  rw [h machine]
  exact .refl machine.tree

theorem bind {next : α → Action β} (h : Writes written action)
    (hnext : ∀ value, Writes written (next value)) :
    Writes written (action >>= next) :=
  Relates.bind (fun hfirst hsecond => hfirst.trans hsecond) h hnext

theorem pure (value : α) : Writes written (Pure.pure value) :=
  of_keepsTree fun _ => rfl

theorem throw (failure : Failure) :
    Writes written (MonadExcept.throw failure : Action α) :=
  of_keepsTree fun _ => rfl

theorem mono {more : String → Prop} (h : Writes written action)
    (hmore : ∀ path, written path → more path) : Writes more action :=
  fun machine => (h machine).mono hmore

theorem write {path : String} (hpath : written path) (text : String) :
    Writes written (Host.write path text) := by
  intro machine
  rw [Machine.run_write]
  cases hwrite : machine.tree.write path text with
  | ok tree => exact .of_write hwrite hpath
  | error fault => exact .refl machine.tree

theorem makeDirectory (path : String) :
    Writes written (Host.makeDirectory path) := by
  intro machine
  rw [Machine.run_makeDirectory]
  cases hmake : machine.tree.makeDirectory path with
  | ok tree => exact .of_makeDirectory hmake
  | error fault => exact .refl machine.tree

end Writes

end JackSyntax.Command
