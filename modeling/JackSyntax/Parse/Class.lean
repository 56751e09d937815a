/-
Parsing a class: a source must hold exactly one class and then end. The
result is what was recognized, or the first error; nothing of what came
before an error is in the result, but the parser that is left has it.
-/
import JackSyntax.Parse.Run

namespace JackSyntax

/-- A class that was parsed: its name, the trace of its rules and tokens,
and the records of its declarations and calls as they were completed. -/
structure ParsedClass where
  name : String
  trace : Trace
  subroutines : List Subroutine
  calls : List Call
  deriving DecidableEq, Repr

namespace Parser

/-- The subroutines noted, in order. -/
def subroutines (parser : Parser) : List Subroutine :=
  parser.notes.toList.filterMap Note.subroutine?

/-- The calls noted, in order. -/
def calls (parser : Parser) : List Call :=
  parser.notes.toList.filterMap Note.call?

/-- Parses one class up to the end of the source. -/
def parseClass (parser : Parser) : Outcome ParsedClass :=
  (parser.run (.rule "" .classDec)).andThen fun name after =>
    if after.peekIs .eof then
      .done ⟨name, after.trace, after.subroutines, after.calls⟩ after
    else after.reject .trailingInput

end Parser

/-- The result of an operation, without the parser that it leaves. -/
def Outcome.result {α : Type} : Outcome α → Except SyntaxError α
  | .done value _ => .ok value
  | .failed error _ => .error error

/-- Parses the class that a source holds, with so many counted rules open
at most. -/
def parse (source : TokenSource) (limit : Nat) :
    Except SyntaxError ParsedClass :=
  (Parser.start source limit).parseClass.result

/-- Parses the class that a text holds. -/
def parseText (source : String) (limit : Nat) :
    Except SyntaxError ParsedClass :=
  parse (.ofText source) limit

end JackSyntax
