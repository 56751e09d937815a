/-
The command: reads source files, parses the class in each, and writes
its trace as XML beside it or into a directory of its own.

The sources are the file that was named or, in order of their names,
the entries with the extension `jack` of the directory that was named. A
source with a syntax error is reported and the others are still done;
any failure with files ends the run where it happens.
-/
import JackSyntax.Command.Host
import JackSyntax.Command.Log
import JackSyntax.Command.Options
import JackSyntax.Excerpt

namespace JackSyntax.Command

-- ========================================================== failures

/-- What ends a run before its time. -/
inductive Failure
  | noSuchPath (path : String)
  | noSources (path : String)
  | unreadable (path : String) (fault : Fault)
  | noOutputDirectory (path : String) (fault : Fault)
  | unwritable (path : String) (fault : Fault)
  /-- An excerpt was broken off. -/
  | brokenExcerpt
  deriving DecidableEq, Repr

/-- How a failure is reported; a broken excerpt speaks for itself. -/
def Failure.message? : Failure → Option String
  | .noSuchPath path =>
    some (path ++ " is neither a file nor a directory")
  | .noSources path => some ("no .jack files in " ++ path)
  | .unreadable path fault =>
    some ("failed to read " ++ path ++ ": " ++ fault.message)
  | .noOutputDirectory path fault =>
    some ("failed to create output directory " ++ path ++ ": "
      ++ fault.message)
  | .unwritable path fault =>
    some ("failed to write " ++ path ++ ": " ++ fault.message)
  | .brokenExcerpt => none

/-- How a run ends. -/
inductive Exit
  | success | failure | refused | broken
  deriving DecidableEq, Repr

/-- The status that the command leaves. -/
def Exit.code : Exit → Nat
  | .success => 0
  | .failure => 1
  | .refused => 2
  | .broken => 101

variable {m : Type → Type} [Monad m] [Host m]

/-- Operations of the host in a run that may fail. -/
instance : Host (ExceptT Failure m) where
  kind? path := ExceptT.lift (Host.kind? path)
  list path := ExceptT.lift (Host.list path)
  read path := ExceptT.lift (Host.read path)
  write path text := ExceptT.lift (Host.write path text)
  makeDirectory path := ExceptT.lift (Host.makeDirectory path)
  print text := ExceptT.lift (Host.print text)
  report text := ExceptT.lift (Host.report text)
  elapsed := ExceptT.lift Host.elapsed

/-- Reports a line of the log, an error in any case and the rest if the
log is to be verbose. -/
def log (verbose : Bool) (line : LogLine) : m Unit :=
  if verbose ∨ line.level = .error then Host.report line.text
  else pure ()

-- ======================================================= directories

/-- Makes a directory; one that is there already will do. -/
def ensureDirectory (path : String) : m (Except Fault Unit) := do
  match ← Host.makeDirectory path with
  | .error .exists =>
    if (← Host.kind? path) = some .directory then return .ok ()
    else return .error .exists
  | result => return result

/-- Makes a directory, given with the directories that it is in, and
those of them that are missing. -/
def ensureDirectories : List String → m (Except Fault Unit)
  | [] => return .ok ()
  | path :: above => do
    match ← ensureDirectory path with
    | .error .missing =>
      match ← ensureDirectories above with
      | .ok _ => ensureDirectory path
      | .error fault => return .error fault
    | result => return result

-- =========================================================== sources

/-- The names of sources among the names in a directory, in order. -/
def sourceNames (names : List String) : List String :=
  (names.filter fun name => Path.extension? name == some "jack").mergeSort
    fun first second => first ≤ second

/-- The paths of the sources that a path names. -/
def sources (path : String) : ExceptT Failure m (List String) := do
  match ← Host.kind? path with
  | none => throw (.noSuchPath path)
  | some .file => return [path]
  | some .directory =>
    match ← Host.list path with
    | .error fault => throw (.unreadable path fault)
    | .ok names =>
      match sourceNames names with
      | [] => throw (.noSources path)
      | found => return found.map (Path.join path)

/-- Where the outputs for a source go. -/
def outputDir (options : Options) (path : String) : String :=
  options.outputDir?.getD ((Path.parent? path).getD "")

/-- The path of the trace of a source. -/
def tracePath (options : Options) (path : String) : String :=
  Path.join (outputDir options path)
    (Path.stem (Path.name path) ++ ".xml")

/-- The path of the listing of the tokens of a source. -/
def listingPath (options : Options) (path : String) : String :=
  Path.join (outputDir options path)
    (Path.stem (Path.name path) ++ "T.xml")

-- ========================================================== the run

/-- Writes an output and reports that. -/
def writeOutput (options : Options) (path text : String) :
    ExceptT Failure m Unit := do
  match ← Host.write path text with
  | .error fault => throw (.unwritable path fault)
  | .ok _ => log options.verbose (.wrote path)

/-- Reports an error with its excerpt. -/
def showError (error : SyntaxError) (source path : String) :
    ExceptT Failure m Unit := do
  match Excerpt.ofError error source path with
  | .complete text => Host.report text
  | .brokenOff text =>
    Host.report text
    throw .brokenExcerpt

/-- Does one source, and says whether it holds a class. The listing of
its tokens is written first and in any case. -/
def analyzeSource (options : Options) (path : String) :
    ExceptT Failure m Bool := do
  match ← Host.read path with
  | .error fault => throw (.unreadable path fault)
  | .ok source =>
    if options.tokens then
      writeOutput options (listingPath options path)
        (tokensXml (tokenize source))
    let parser := Parser.start (.ofText source) options.maxDepth
    let outcome := parser.parseClass
    (outcome.after.notes.toList.filterMap LogLine.ofNote?).forM
      (log options.verbose ·)
    match outcome with
    | .done parsed _ =>
      log options.verbose (.parsedClass parsed)
      log options.verbose (.summary path parsed)
      writeOutput options (tracePath options path) parsed.trace.xml
      return true
    | .failed error _ =>
      showError error source path
      return false

/-- Does all sources in order, and says whether each holds a class. -/
def analyzeAll (options : Options) :
    List String → ExceptT Failure m Bool
  | [] => return true
  | path :: paths => do
    let first ← analyzeSource options path
    let rest ← analyzeAll options paths
    return first && rest

/-- Finds the sources, makes the output directory if there is to be one,
and does all sources. -/
def analyze (options : Options) : ExceptT Failure m Bool := do
  let paths ← sources options.path
  match options.outputDir? with
  | none => pure ()
  | some directory =>
    match ← ensureDirectories (Path.ancestors directory) with
    | .ok _ => pure ()
    | .error fault => throw (.noOutputDirectory directory fault)
  let clean ← analyzeAll options paths
  log options.verbose (.analyzed paths.length (← Host.elapsed))
  return clean

-- ======================================================= the command

def versionText : String := programName ++ " 0.1.0\n"

def usageText : String :=
  "Usage: " ++ programName ++ " [OPTIONS] <PATH>\n"

def helpText : String :=
  "Checks Jack source files against the Jack grammar and writes their "
    ++ "parse trees as XML\n\n" ++ usageText ++ "\n"
    ++ "Arguments:\n"
    ++ "  <PATH>  A `.jack` file or a directory of them\n\n"
    ++ "Options:\n"
    ++ "  -o, --output-dir <DIR>  Directory for the generated files\n"
    ++ "  -t, --tokens            Also write the token listing\n"
    ++ "      --max-depth <N>     Deepest nesting accepted\n"
    ++ "  -v, --verbose           Report progress\n"
    ++ "  -h, --help              Print help\n"
    ++ "  -V, --version           Print version\n"

/-- Runs the command with its arguments. -/
def execute (arguments : List String) : m Exit := do
  match Invocation.ofArguments Parser.defaultLimit arguments with
  | .version =>
    Host.print versionText
    return .success
  | .help =>
    Host.print helpText
    return .success
  | .refused =>
    Host.report usageText
    return .refused
  | .analyze options =>
    match ← (analyze options).run with
    | .ok true => return .success
    | .ok false => return .failure
    | .error failure =>
      match failure.message? with
      | some message =>
        log options.verbose (.plain .error message)
        return .failure
      | none => return .broken

end JackSyntax.Command
