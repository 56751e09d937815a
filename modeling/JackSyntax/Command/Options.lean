/-
Options: what the arguments of the command ask for.

Arguments are read in order and the first one that is wrong refuses the
whole command line, except that a request for the version or for help
takes effect where it stands: what comes after it is not read. Only when
all arguments are read is a missing path, or a missing value of the last
option, found out.
-/
namespace JackSyntax.Command

/-- A complete set of options. -/
structure Options where
  /-- A source file or a directory of them. -/
  path : String
  /-- Where to write, if not beside each source. -/
  outputDir? : Option String
  /-- Also write the listing of the tokens. -/
  tokens : Bool
  /-- How many counted rules may be open at once. -/
  maxDepth : Nat
  /-- Report progress, not only errors. -/
  verbose : Bool
  deriving DecidableEq, Repr

/-- What a command line comes to. -/
inductive Invocation
  | analyze (options : Options)
  | version
  | help
  | refused
  deriving DecidableEq, Repr

-- ======================================================== the values

/-- A switch is on or off; a setting has a value. -/
inductive Switch
  | tokens | verbose | version | help
  deriving DecidableEq, Repr

inductive Setting
  | outputDir | maxDepth
  deriving DecidableEq, Repr

/-- The largest nesting limit that can be asked for. -/
def largestDepth : Nat := 18446744073709551615

/-- Decimal digits as a number. -/
def readDigits (digits : List Char) : Nat :=
  digits.foldl (fun n c => 10 * n + (c.toNat - '0'.toNat)) 0

/-- A number of decimal digits, possibly after a plus sign, that does not
exceed the largest depth. -/
def readDepth? (text : String) : Option Nat :=
  let digits := match text.toList with
    | '+' :: digits => digits
    | digits => digits
  if digits ≠ [] ∧ digits.all Char.isDigit ∧ readDigits digits ≤ largestDepth
  then some (readDigits digits)
  else none

-- ================================================= reading arguments

/-- What has been read so far. -/
structure Draft where
  path? : Option String
  outputDir? : Option String
  tokens : Bool
  maxDepth? : Option Nat
  verbose : Bool
  /-- The setting whose value is the next argument. -/
  awaiting? : Option Setting
  /-- No further argument is an option. -/
  optionsEnded : Bool
  deriving DecidableEq, Repr

namespace Draft

def empty : Draft := ⟨none, none, false, none, false, none, false⟩

/-- Reading goes on with a draft, or ends the command line at once. -/
abbrev Step := Except Invocation Draft

def refuse : Step := .error .refused

/-- An argument that is no option: there is one path and it is not the
empty text. -/
def addPath (draft : Draft) (text : String) : Step :=
  if draft.path?.isSome ∨ text = "" then refuse
  else .ok { draft with path? := some text }

/-- A switch may be given once. -/
def turnOn (draft : Draft) : Switch → Step
  | .version => .error .version
  | .help => .error .help
  | .tokens =>
    if draft.tokens then refuse else .ok { draft with tokens := true }
  | .verbose =>
    if draft.verbose then refuse else .ok { draft with verbose := true }

/-- A setting may be given once, with a value that fits it. -/
def assign (draft : Draft) (text : String) : Setting → Step
  | .outputDir =>
    if draft.outputDir?.isSome ∨ text = "" then refuse
    else .ok { draft with outputDir? := some text }
  | .maxDepth =>
    match draft.maxDepth?, readDepth? text with
    | none, some depth => .ok { draft with maxDepth? := some depth }
    | _, _ => refuse

/-- The value of a setting is the next argument. -/
def await (draft : Draft) (setting : Setting) : Step :=
  .ok { draft with awaiting? := some setting }

/-- What stands after two hyphens: a name, or the name of a setting, an
equals sign and its value. -/
def addLong (draft : Draft) (text : List Char) : Step :=
  let name := String.ofList (text.takeWhile (· != '='))
  match name, text.dropWhile (· != '=') with
  | "tokens", [] => draft.turnOn .tokens
  | "verbose", [] => draft.turnOn .verbose
  | "version", [] => draft.turnOn .version
  | "help", [] => draft.turnOn .help
  | "output-dir", [] => draft.await .outputDir
  | "max-depth", [] => draft.await .maxDepth
  | "output-dir", _ :: value =>
    draft.assign (String.ofList value) .outputDir
  | "max-depth", _ :: value =>
    draft.assign (String.ofList value) .maxDepth
  | _, _ => refuse

/-- What stands after one hyphen: switches by one letter each, and
perhaps the output directory, which takes the rest for its value. An
equals sign before the value does not belong to it. -/
def addShort : Draft → List Char → Step
  | draft, [] => .ok draft
  | draft, 't' :: rest =>
    match draft.turnOn .tokens with
    | .ok draft => addShort draft rest
    | .error invocation => .error invocation
  | draft, 'v' :: rest =>
    match draft.turnOn .verbose with
    | .ok draft => addShort draft rest
    | .error invocation => .error invocation
  | draft, 'V' :: _ => draft.turnOn .version
  | draft, 'h' :: _ => draft.turnOn .help
  | draft, ['o'] => draft.await .outputDir
  | draft, 'o' :: '=' :: value =>
    draft.assign (String.ofList value) .outputDir
  | draft, 'o' :: value => draft.assign (String.ofList value) .outputDir
  | _, _ :: _ => refuse

/-- Reads one argument. A single hyphen is no option; after two of them
alone nothing is. The value of a setting cannot look like an option. -/
def add (draft : Draft) (argument : String) : Step :=
  if draft.optionsEnded then draft.addPath argument
  else
    match draft.awaiting?, argument.toList with
    | some _, '-' :: _ :: _ => refuse
    | some setting, _ =>
      { draft with awaiting? := none }.assign argument setting
    | none, ['-', '-'] => .ok { draft with optionsEnded := true }
    | none, '-' :: '-' :: text => draft.addLong text
    | none, '-' :: c :: text => draft.addShort (c :: text)
    | none, _ => draft.addPath argument

/-- When all arguments are read there is a path and no value is missing. -/
def finish (defaultDepth : Nat) (draft : Draft) : Invocation :=
  match draft.path?, draft.awaiting? with
  | some path, none =>
    .analyze
      { path := path
        outputDir? := draft.outputDir?
        tokens := draft.tokens
        maxDepth := draft.maxDepth?.getD defaultDepth
        verbose := draft.verbose }
  | _, _ => .refused

end Draft

/-- What a command line comes to, given the nesting limit that holds
where none is asked for. -/
def Invocation.ofArguments (defaultDepth : Nat)
    (arguments : List String) : Invocation :=
  match arguments.foldlM Draft.add .empty with
  | .ok draft => draft.finish defaultDepth
  | .error invocation => invocation

end JackSyntax.Command
