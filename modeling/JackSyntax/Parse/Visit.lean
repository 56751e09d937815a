/-
The interpreter of recognizers. A part of the grammar is run by running
its body, between the opening and the closing of its rule if it is one,
so each rule that is opened and succeeds is closed, and no body can do
otherwise.

Bodies run each other without end on paper, so the interpreter counts
down how deep they may call and has no answer where the count runs out.
`Parse.Progress` says how high a count is always enough.
-/
import JackSyntax.Parse.Parser
import JackSyntax.Parse.Rules

namespace JackSyntax

-- ==================================================== the interpreter

/-- What running parts of the grammar comes to, none where the calls are
too deep to tell. -/
abbrev Visit := String → (part : Part) → Parser →
  Option (Outcome part.Value)

/-- Runs a recognizer, given how parts are run. -/
def Recognizer.runWith {α : Type} (visit : Visit) :
    Recognizer α → Parser → Option (Outcome α)
  | .done value, parser => some (.done value parser)
  | .look next, parser =>
    (next parser.lookahead.kind).runWith visit parser
  | .accept kinds next, parser =>
    match parser.accept kinds with
    | .done token parser => (next token).runWith visit parser
    | .failed error parser => some (.failed error parser)
  | .refuse reason, parser => some (parser.reject reason)
  | .note left next, parser => next.runWith visit (parser.note left)
  | .call owner part next, parser =>
    match visit owner part parser with
    | none => none
    | some (.done value parser) => (next value).runWith visit parser
    | some (.failed error parser) => some (.failed error parser)

/-- Runs what a part consists of, between the two ends of its rule. A
repetition is no rule and has none. -/
def Part.around {α : Type} (inner : Parser → Option (Outcome α)) :
    Part → Parser → Option (Outcome α)
  | .many _, parser => inner parser
  | .rule entered, parser =>
    match parser.enter entered with
    | .failed error parser => some (.failed error parser)
    | .done _ parser =>
      (inner parser).map (·.andThen fun value parser =>
        .done value (parser.exit entered))

/-- Runs a part with so many calls, one inside the other. -/
def visit : (calls : Nat) → Visit
  | 0, _, _, _ => none
  | calls + 1, owner, part, parser =>
    part.around ((Recognizer.body owner part).runWith (visit calls)) parser

end JackSyntax
