/-
Log lines: what the command reports of its progress and of its failures.
An error is always reported, everything else only on request. A message
can quote a path, and so whatever characters the name of a file holds;
those that a terminal would obey are spelled out when it is printed.
-/
import JackSyntax.Parse.Class
import JackSyntax.Text.Control

namespace JackSyntax.Command

/-- The name that the command goes by. -/
def programName : String := "jack_analyzer"

inductive Level
  | error | info | debug
  deriving DecidableEq, Repr

/-- The name of the level in a field of five characters. -/
def Level.label : Level → String
  | .error => "ERROR"
  | .info => " INFO"
  | .debug => "DEBUG"

/-- One line of the log. The target says which part of the program the
line is from. -/
structure LogLine where
  level : Level
  target : String
  message : String
  fields : List (String × String)
  deriving DecidableEq, Repr

namespace LogLine

/-- The line as it is printed. The fields hold names and numbers only,
so there is nothing to spell out in them. -/
def text (line : LogLine) : String :=
  let fields := line.fields.map fun (name, value) =>
    " " ++ name ++ "=" ++ value
  line.level.label ++ " " ++ line.target ++ ": "
    ++ Text.spellOut line.message ++ String.join fields ++ "\n"

-- ========================================================= the lines

/-- A line from the command itself. -/
def plain (level : Level) (message : String) : LogLine :=
  ⟨level, programName, message, []⟩

/-- The line for a note of a parser. Calls are not reported. -/
def ofNote? : Note → Option LogLine
  | .header name line =>
    some ⟨.debug, programName ++ "::parser::decl", "parsing class",
      [("class", name), ("line", line.repr)]⟩
  | .subroutine declared =>
    some ⟨.debug, programName ++ "::parser::parser", "parsed subroutine",
      [("name", declared.name), ("kind", declared.kind.name),
        ("parameters", declared.parameters.repr),
        ("locals", declared.locals.repr)]⟩
  | .call _ => none

/-- A class was parsed. -/
def parsedClass (parsed : ParsedClass) : LogLine :=
  ⟨.debug, programName ++ "::parser::parser", "parsed class",
    [("class", parsed.name), ("entries", parsed.trace.length.repr),
      ("subroutines", parsed.subroutines.length.repr)]⟩

/-- What a source file holds. -/
def summary (path : String) (parsed : ParsedClass) : LogLine :=
  plain .debug (path ++ ": class " ++ parsed.name ++ " with "
    ++ parsed.subroutines.length.repr ++ " subroutine(s), "
    ++ parsed.calls.length.repr ++ " call(s)")

/-- A file was written. -/
def wrote (path : String) : LogLine := plain .info ("wrote " ++ path)

/-- All sources were read, parsed or not. -/
def analyzed (count : Nat) (elapsed : String) : LogLine :=
  plain .info ("analyzed " ++ count.repr ++ " file(s) in " ++ elapsed)

end LogLine

end JackSyntax.Command
