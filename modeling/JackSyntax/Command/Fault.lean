/-
Faults: why an operation on files did not succeed. The system's own
faults carry its number for them.
-/
namespace JackSyntax.Command

inductive Fault
  /-- Nothing has this name. -/
  | missing
  /-- Something has this name already. -/
  | exists
  /-- What should be a directory on the way is none. -/
  | notDirectory
  /-- What should be a file is a directory. -/
  | isDirectory
  /-- A name exceeds what a directory can hold. -/
  | nameTooLong
  /-- The file is there and its bytes are not UTF-8. -/
  | invalidText
  /-- Any other fault, in the words of the system. -/
  | other (message : String)
  deriving DecidableEq, Repr

/-- The fault in words. -/
def Fault.message : Fault → String
  | .missing => "No such file or directory (os error 2)"
  | .exists => "File exists (os error 17)"
  | .notDirectory => "Not a directory (os error 20)"
  | .isDirectory => "Is a directory (os error 21)"
  | .nameTooLong => "File name too long (os error 36)"
  | .invalidText => "stream did not contain valid UTF-8"
  | .other message => message

end JackSyntax.Command
