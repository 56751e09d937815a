/-
Token kinds: the vocabulary that the scanner produces and the grammar
is written in. A kind is a keyword or a symbol, which has one fixed
spelling, or one of three open classes (numbers, strings, identifiers),
or one of the two kinds no sentence contains: the end of input and
illegal text.

Everything else in the library branches on kinds, never on the text of
a token, so this file also names the sets of kinds at which the grammar
branches. The order inside each set is the order in which an error
message lists what it expected.
-/
namespace JackSyntax

-- ================================================== the vocabulary

/-- What a token is, its text and its position aside. -/
inductive Kind
  | eof | illegal | number | string | identifier
  | openBracket | closeBracket | openCurly | closeCurly
  | openParen | closeParen | dot | comma | semicolon
  | plus | dash | star | slash | and | or | less | greater
  | equals | tilde
  | kwClass | kwConstructor | kwFunction | kwMethod | kwField
  | kwStatic | kwVar | kwInt | kwChar | kwBoolean | kwVoid
  | kwTrue | kwFalse | kwNull | kwThis | kwLet | kwDo | kwIf
  | kwElse | kwWhile | kwReturn
  deriving DecidableEq, Repr, Inhabited

namespace Kind

/-- The reserved words. -/
def keywords : List Kind :=
  [.kwClass, .kwConstructor, .kwFunction, .kwMethod, .kwField,
    .kwStatic, .kwVar, .kwInt, .kwChar, .kwBoolean, .kwVoid,
    .kwTrue, .kwFalse, .kwNull, .kwThis, .kwLet, .kwDo, .kwIf,
    .kwElse, .kwWhile, .kwReturn]

/-- The one-character symbols. -/
def symbols : List Kind :=
  [.openBracket, .closeBracket, .openCurly, .closeCurly, .openParen,
    .closeParen, .dot, .comma, .semicolon, .plus, .dash, .star,
    .slash, .and, .or, .less, .greater, .equals, .tilde]

/-- The fixed spelling of a keyword or a symbol; the open classes, the
end of input and illegal text have none. -/
def spelling? : Kind → Option String
  | .eof | .illegal | .number | .string | .identifier => none
  | .openBracket => some "["
  | .closeBracket => some "]"
  | .openCurly => some "\x7b"
  | .closeCurly => some "\x7d"
  | .openParen => some "("
  | .closeParen => some ")"
  | .dot => some "."
  | .comma => some ","
  | .semicolon => some ";"
  | .plus => some "+"
  | .dash => some "-"
  | .star => some "*"
  | .slash => some "/"
  | .and => some "&"
  | .or => some "|"
  | .less => some "<"
  | .greater => some ">"
  | .equals => some "="
  | .tilde => some "~"
  | .kwClass => some "class"
  | .kwConstructor => some "constructor"
  | .kwFunction => some "function"
  | .kwMethod => some "method"
  | .kwField => some "field"
  | .kwStatic => some "static"
  | .kwVar => some "var"
  | .kwInt => some "int"
  | .kwChar => some "char"
  | .kwBoolean => some "boolean"
  | .kwVoid => some "void"
  | .kwTrue => some "true"
  | .kwFalse => some "false"
  | .kwNull => some "null"
  | .kwThis => some "this"
  | .kwLet => some "let"
  | .kwDo => some "do"
  | .kwIf => some "if"
  | .kwElse => some "else"
  | .kwWhile => some "while"
  | .kwReturn => some "return"

def isKeyword (kind : Kind) : Bool :=
  keywords.contains kind

def isSymbol (kind : Kind) : Bool :=
  symbols.contains kind

/-- The keyword that a word spells, if the word is reserved. -/
def ofReserved? (word : String) : Option Kind :=
  keywords.find? fun kind => kind.spelling? == some word

/-- The symbol that a character spells. -/
def ofSymbol? : Char → Option Kind
  | '[' => some .openBracket
  | ']' => some .closeBracket
  | '{' => some .openCurly
  | '}' => some .closeCurly
  | '(' => some .openParen
  | ')' => some .closeParen
  | '.' => some .dot
  | ',' => some .comma
  | ';' => some .semicolon
  | '+' => some .plus
  | '-' => some .dash
  | '*' => some .star
  | '/' => some .slash
  | '&' => some .and
  | '|' => some .or
  | '<' => some .less
  | '>' => some .greater
  | '=' => some .equals
  | '~' => some .tilde
  | _ => none

/-- The element that holds a terminal of this kind in XML. -/
def xmlTag (kind : Kind) : String :=
  match kind with
  | .number => "integerConstant"
  | .string => "stringConstant"
  | .identifier => "identifier"
  | .eof | .illegal => "unknown"
  | _ => if kind.isKeyword then "keyword" else "symbol"

/-- How an error message names the kind: by its spelling in single
quotes where there is one, otherwise in words. -/
def describe (kind : Kind) : String :=
  match kind with
  | .eof => "end of input"
  | .illegal => "illegal character"
  | .number => "integer constant"
  | .string => "string constant"
  | .identifier => "identifier"
  | _ => "'" ++ kind.spelling?.getD "" ++ "'"

-- ========================================= where the grammar branches

/-- What opens a declaration of class variables. -/
def classVarHeads : List Kind := [.kwStatic, .kwField]

/-- What opens a subroutine declaration. -/
def subroutineHeads : List Kind := [.kwConstructor, .kwFunction, .kwMethod]

/-- A type is one of three primitive ones or the name of a class. -/
def types : List Kind := [.kwInt, .kwChar, .kwBoolean, .identifier]

/-- A subroutine may also return nothing. -/
def returnTypes : List Kind :=
  [.kwVoid, .kwInt, .kwChar, .kwBoolean, .identifier]

/-- What opens a statement. -/
def statementHeads : List Kind :=
  [.kwLet, .kwIf, .kwWhile, .kwDo, .kwReturn]

/-- The words that are terms by themselves. -/
def constants : List Kind := [.kwTrue, .kwFalse, .kwNull, .kwThis]

/-- The binary operators, all of one precedence. The tilde is among
them, besides being a unary operator at the head of a term. -/
def operators : List Kind :=
  [.plus, .dash, .star, .slash, .and, .or, .less, .greater, .equals,
    .tilde]

def unaryOperators : List Kind := [.dash, .tilde]

-- ====================================== keywords, symbols, spellings

/-- A word is reserved for exactly the keyword that is spelled so. -/
theorem ofReserved?_spelling :
    ∀ kind ∈ keywords, kind.spelling?.bind ofReserved? = some kind := by
  decide

/-- Every symbol is read back from its spelling. -/
theorem ofSymbol?_spelling :
    ∀ kind ∈ symbols,
      kind.spelling?.bind (·.toList.head?.bind ofSymbol?) = some kind := by
  decide

/-- A kind has a fixed spelling just if it is a keyword or a symbol. -/
theorem spelling?_isSome (kind : Kind) :
    kind.spelling?.isSome = (kind.isKeyword || kind.isSymbol) := by
  cases kind <;> decide

/-- No kind is both a keyword and a symbol. -/
theorem not_isSymbol_of_isKeyword (kind : Kind) (h : kind.isKeyword) :
    kind.isSymbol = false := by
  revert h; cases kind <;> decide

end Kind

end JackSyntax
