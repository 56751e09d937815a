/-
The command on a real system: its files, its standard output and its
standard error. All decisions are made by `Command.execute`; what is here
hands its requests to the system and puts the system's answers into the
command's words.
-/
import JackSyntax.Command.Analyze

namespace JackSyntax.Command

-- ============================================================ faults

/-- A fault known by its number, or else in the system's words. -/
def Fault.ofCode (code : UInt32) (details : String) : Fault :=
  match code with
  | 2 => .missing
  | 17 => .exists
  | 20 => .notDirectory
  | 21 => .isDirectory
  | 36 => .nameTooLong
  | _ => .other (details ++ " (os error " ++ code.toNat.repr ++ ")")

/-- What the system says went wrong. -/
def Fault.ofError : IO.Error → Fault
  | .alreadyExists _ code details
  | .interrupted _ code details
  | .noFileOrDirectory _ code details
  | .invalidArgument _ code details
  | .permissionDenied _ code details
  | .resourceExhausted _ code details
  | .inappropriateType _ code details
  | .noSuchThing _ code details
  | .otherError code details
  | .resourceBusy code details
  | .resourceVanished code details
  | .unsupportedOperation code details
  | .hardwareFault code details
  | .unsatisfiedConstraints code details
  | .illegalOperation code details
  | .protocolError code details
  | .timeExpired code details => .ofCode code details
  | .unexpectedEof => .other "unexpected end of file"
  | .userError message => .other message

/-- An action with its failure as a value. -/
def attempt {α : Type} (action : IO α) : IO (Except Fault α) := do
  try
    return .ok (← action)
  catch error =>
    return .error (.ofError error)

-- ========================================================== the host

/-- When the program started, which is where elapsed time starts. -/
abbrev Clocked := ReaderT Nat IO

/-- What a path leads to on the system. -/
def systemKind? (path : String) : IO (Option NodeKind) := do
  match ← attempt (IO.FS.realPath path) with
  | .error _ => return none
  | .ok found =>
    if ← found.isDir then return some .directory
    else if ← found.pathExists then return some .file
    else return none

/-- The names in a directory of the system. -/
def systemList (path : String) : IO (List String) := do
  let entries ← (← IO.FS.realPath path).readDir
  return entries.toList.map (·.fileName)

/-- The text of a file of the system. -/
def systemRead (path : String) : IO (Except Fault String) := do
  match ← attempt (IO.FS.readBinFile path) with
  | .error fault => return .error fault
  | .ok bytes =>
    match String.fromUTF8? bytes with
    | some text => return .ok text
    | none => return .error .invalidText

/-- Nanoseconds as milliseconds. -/
def milliseconds (nanoseconds : Nat) : String :=
  (nanoseconds / 1000000).repr ++ "ms"

instance : Host Clocked where
  kind? path := systemKind? path
  list path := attempt (systemList path)
  read path := systemRead path
  write path text := attempt (IO.FS.writeFile path text)
  makeDirectory path := attempt (IO.FS.createDir path)
  print text := IO.print text
  report text := IO.eprint text
  elapsed := do
    let started ← read
    return milliseconds ((← IO.monoNanosNow) - started)

end JackSyntax.Command

/-- Runs the command and leaves its status. -/
def main (arguments : List String) : IO UInt32 := do
  let started ← IO.monoNanosNow
  let running : JackSyntax.Command.Clocked JackSyntax.Command.Exit :=
    JackSyntax.Command.execute arguments
  return (← running.run started).code.toUInt32
