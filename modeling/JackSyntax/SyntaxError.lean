/-
Syntax errors: why the tokens are no class, and where that shows. An
error always points at the token that was next when it arose, never at
the last one that was accepted.
-/
import JackSyntax.Token

namespace JackSyntax

/-- Why a text was rejected. -/
inductive Reason
  /-- The next token is of none of these kinds, the only ones allowed. -/
  | expected (kinds : List Kind)
  | termExpected
  | statementExpected
  /-- The class is complete and something follows it. -/
  | trailingInput
  /-- Terms, expressions and blocks are nested deeper than allowed. -/
  | nestingTooDeep (limit : Nat)
  deriving DecidableEq, Repr

namespace Reason

/-- The reason in words. A single expected kind is named alone, any other
number of them as a list. -/
def message : Reason → String
  | .expected [kind] => "expected " ++ kind.describe
  | .expected kinds =>
    "expected one of " ++ ", ".intercalate (kinds.map Kind.describe)
  | .termExpected => "term expected"
  | .statementExpected => "expected a statement"
  | .trailingInput => "expected end of input"
  | .nestingTooDeep limit =>
    "nesting too deep (limit " ++ limit.repr ++ ")"

/-- Advice for the reader, where there is some to give. -/
def tip? : Reason → Option String
  | .expected kinds =>
    if kinds.contains .semicolon then some "did you miss a semicolon?"
    else none
  | .termExpected =>
    some ("a term is a constant, a variable, a call, a parenthesized "
      ++ "expression or a unary operation")
  | .statementExpected =>
    some "statements start with let, if, while, do or return"
  | .trailingInput => some "a source file holds exactly one class"
  | .nestingTooDeep limit =>
    some ("raise the nesting limit above " ++ limit.repr
      ++ " or flatten the expression")

end Reason

/-- Where in the sequence of tokens an error shows. -/
inductive Location
  | atEnd
  | lexeme (value : String)
  deriving DecidableEq, Repr

namespace Location

def ofToken (token : Token) : Location :=
  if token.kind = .eof then .atEnd else .lexeme token.value

def message : Location → String
  | .atEnd => "at end"
  | .lexeme value => "at '" ++ value ++ "'"

/-- The value of the token, unless the error is at the end. -/
def lexeme? : Location → Option String
  | .atEnd => none
  | .lexeme value => some value

end Location

/-- The one error that ends an analysis. -/
structure SyntaxError where
  reason : Reason
  position : Position
  location : Location
  deriving DecidableEq, Repr

namespace SyntaxError

/-- An error that points at a token. -/
def atToken (reason : Reason) (token : Token) : SyntaxError :=
  ⟨reason, token.position, .ofToken token⟩

def message (error : SyntaxError) : String :=
  "[line " ++ error.position.line.repr ++ "] Error "
    ++ error.location.message ++ ": " ++ error.reason.message

end SyntaxError

end JackSyntax
