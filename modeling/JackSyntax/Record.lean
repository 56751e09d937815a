/-
Records: what is kept of a class besides its trace. Each subroutine
declaration and each call leaves one, and so does the header of the
class, in the order in which they are completed.
-/
import JackSyntax.Kind

namespace JackSyntax

/-- The name of a subroutine with the name of its class. -/
def qualify (owner name : String) : String := owner ++ "." ++ name

-- ====================================================== subroutines

inductive SubroutineKind
  | constructor | function | method
  deriving DecidableEq, Repr

namespace SubroutineKind

/-- The kind of subroutine that a keyword declares. -/
def ofKind? : Kind → Option SubroutineKind
  | .kwConstructor => some .constructor
  | .kwFunction => some .function
  | .kwMethod => some .method
  | _ => none

def name : SubroutineKind → String
  | .constructor => "Constructor"
  | .function => "Function"
  | .method => "Method"

/-- Exactly the keywords that open a declaration declare a kind. -/
theorem ofKind?_isSome (kind : Kind) :
    (ofKind? kind).isSome = Kind.subroutineHeads.contains kind := by
  cases kind <;> decide

end SubroutineKind

/-- A subroutine declaration. The name is qualified by the class, the
locals are counted over all declarations of the body, and the line is
that of the name. -/
structure Subroutine where
  name : String
  kind : SubroutineKind
  returnType : String
  parameters : Nat
  locals : Nat
  line : Nat
  deriving DecidableEq, Repr

-- ============================================================ calls

/-- A subroutine call. A bare name is called on the current object, which
is passed as a hidden first argument, and is qualified by the class it
stands in; otherwise the target is the receiver's name, a dot and the
subroutine's. The line is that of the first name. -/
structure Call where
  target : String
  arguments : Nat
  implicitThis : Bool
  line : Nat
  deriving DecidableEq, Repr

/-- How many arguments are passed, the hidden one included. -/
def Call.argumentCount (call : Call) : Nat :=
  call.arguments + if call.implicitThis then 1 else 0

-- ============================================================ notes

/-- A record, of whichever sort. -/
inductive Note
  | header (name : String) (line : Nat)
  | subroutine (declared : Subroutine)
  | call (made : Call)
  deriving DecidableEq, Repr

namespace Note

def subroutine? : Note → Option Subroutine
  | .subroutine declared => some declared
  | _ => none

def call? : Note → Option Call
  | .call made => some made
  | _ => none

end Note

end JackSyntax
