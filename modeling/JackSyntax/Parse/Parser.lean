/-
Parsers: the state in which tokens are recognized. A parser holds a
window of two tokens over its source (the one it accepted last, and the
next one, which it has pulled already), what it has recorded, and how
deep it is in counted rules.

An operation either succeeds or fails, and leaves a parser in both
cases. One that fails to accept a token leaves the parser as it was;
one that fails further in leaves what was recorded up to there, and the
depth it had reached.
-/
import JackSyntax.Source
import JackSyntax.Trace
import JackSyntax.Record
import JackSyntax.SyntaxError

namespace JackSyntax

/-- A parser in the middle of its work. -/
structure Parser where
  /-- The token accepted last, none at the start. -/
  current? : Option Token
  /-- The next token, not yet accepted. -/
  lookahead : Token
  /-- Where the tokens after the next one come from. -/
  source : TokenSource
  trace : Trace
  notes : Array Note
  /-- How many counted rules are open, each failed attempt to open one
  counted too. -/
  depth : Nat
  /-- How many counted rules may be open. -/
  limit : Nat
  deriving DecidableEq, Repr

/-- What an operation came to, and the parser that it leaves. -/
inductive Outcome (α : Type)
  | done (value : α) (after : Parser)
  | failed (error : SyntaxError) (after : Parser)
  deriving DecidableEq, Repr

namespace Outcome

variable {α β : Type}

/-- The parser that the operation leaves. -/
def after : Outcome α → Parser
  | .done _ parser => parser
  | .failed _ parser => parser

/-- Goes on with an operation that depends on the value. -/
def andThen (outcome : Outcome α) (next : α → Parser → Outcome β) :
    Outcome β :=
  match outcome with
  | .done value parser => next value parser
  | .failed error parser => .failed error parser

end Outcome

namespace Parser

/-- The nesting allowed where no other limit is set. -/
def defaultLimit : Nat := 256

/-- A parser at the start of its source, with the first token pulled. -/
def start (source : TokenSource) (limit : Nat) : Parser where
  current? := none
  lookahead := source.next.1
  source := source.next.2
  trace := .empty
  notes := #[]
  depth := 0
  limit := limit

-- ======================================================= the window

/-- The next token becomes the current one and another one is pulled. -/
def advance (parser : Parser) : Parser :=
  { parser with
    current? := some parser.lookahead
    lookahead := parser.source.next.1
    source := parser.source.next.2 }

/-- The next token is of the kind. -/
def peekIs (parser : Parser) (kind : Kind) : Bool :=
  parser.lookahead.kind == kind

/-- The next token is of one of the kinds. -/
def peekIsOneOf (parser : Parser) (kinds : List Kind) : Bool :=
  kinds.contains parser.lookahead.kind

/-- There is a current token and it is of the kind. -/
def currentIs (parser : Parser) (kind : Kind) : Bool :=
  parser.current?.any (·.kind == kind)

/-- The failure that points at the next token. -/
def reject {α : Type} (parser : Parser) (reason : Reason) : Outcome α :=
  .failed (.atToken reason parser.lookahead) parser

/-- Adds an entry to the trace. -/
def mark (parser : Parser) (entry : Entry) : Parser :=
  { parser with trace := parser.trace.push entry }

/-- Accepts the next token if it is of one of the kinds: it goes into
the trace and the window moves on. -/
def accept (parser : Parser) (kinds : List Kind) : Outcome Token :=
  if parser.peekIsOneOf kinds then
    .done parser.lookahead
      (parser.advance.mark (.terminal parser.lookahead))
  else parser.reject (.expected kinds)

-- ================================================= records, nesting

/-- Adds a note. -/
def note (parser : Parser) (left : Note) : Parser :=
  { parser with notes := parser.notes.push left }

/-- Counts one more rule as open. -/
def deeper (parser : Parser) : Parser :=
  { parser with depth := parser.depth + 1 }

/-- Goes one counted rule deeper, which fails beyond the limit. -/
def descend (parser : Parser) : Outcome Unit :=
  if parser.depth < parser.limit then .done () parser.deeper
  else parser.deeper.reject (.nestingTooDeep parser.limit)

/-- Goes one counted rule less deep, at the outside no less than none. -/
def ascend (parser : Parser) : Parser :=
  { parser with depth := parser.depth - 1 }

/-- Starts a rule: the nesting is checked first, so a rule that is too
deep leaves no entry. -/
def enter (parser : Parser) (rule : Rule) : Outcome Unit :=
  let opened := if rule.isCounted then parser.descend else .done () parser
  opened.andThen fun _ parser => .done () (parser.mark (.enter rule))

/-- Ends a rule. -/
def exit (parser : Parser) (rule : Rule) : Parser :=
  if rule.isCounted then (parser.mark (.exit rule)).ascend
  else parser.mark (.exit rule)

-- ====================================================== what is left

/-- A bound on the tokens before the end of input that are not yet
accepted. -/
def remaining (parser : Parser) : Nat :=
  parser.source.remaining + if parser.lookahead.kind = .eof then 0 else 1

/-- Moving on never raises the bound. -/
theorem remaining_advance_le (parser : Parser) :
    parser.advance.remaining ≤ parser.remaining := by
  have hle : parser.advance.source.remaining ≤ parser.source.remaining :=
    parser.source.remaining_next_le
  unfold remaining
  by_cases hnext : parser.advance.lookahead.kind = .eof
  · rw [if_pos hnext]
    omega
  · have hlt : parser.advance.source.remaining < parser.source.remaining :=
      parser.source.remaining_next_lt hnext
    rw [if_neg hnext]
    omega

/-- Moving past a token other than the end of input lowers the bound. -/
theorem remaining_advance_lt (parser : Parser)
    (h : parser.lookahead.kind ≠ .eof) :
    parser.advance.remaining < parser.remaining := by
  have hle : parser.advance.source.remaining ≤ parser.source.remaining :=
    parser.source.remaining_next_le
  unfold remaining
  rw [if_neg h]
  by_cases hnext : parser.advance.lookahead.kind = .eof
  · rw [if_pos hnext]
    omega
  · have hlt : parser.advance.source.remaining < parser.source.remaining :=
      parser.source.remaining_next_lt hnext
    rw [if_neg hnext]
    omega

end Parser

end JackSyntax
