/-
The rules of the grammar as recognizers, one for each rule and one for
each item that is repeated.

    class          = 'class' name '{' classVarDec* subroutineDec* '}'
    classVarDec    = ('static' | 'field') type name (',' name)* ';'
    subroutineDec  = ('constructor' | 'function' | 'method')
                     ('void' | type) name '(' parameterList ')'
                     subroutineBody
    parameterList  = (type name (',' type name)*)?
    subroutineBody = '{' varDec* statements '}'
    varDec         = 'var' type name (',' name)* ';'
    statements     = statement*
    letStatement   = 'let' name ('[' expression ']')? '=' expression ';'
    ifStatement    = 'if' '(' expression ')' block ('else' block)?
    whileStatement = 'while' '(' expression ')' block
    doStatement    = 'do' subroutineCall ';'
    returnStatement = 'return' expression? ';'
    block          = '{' statements '}'
    expression     = term (operator term)*
    term           = number | string | constant | name
                   | name '[' expression ']' | subroutineCall
                   | '(' expression ')' | unaryOperator term
    subroutineCall = (name '.')? name '(' expressionList ')'
    expressionList = (expression (',' expression)*)?

An optional piece is taken by its first token where it has one of its
own ('[', 'else'). The pieces that may start in many ways are left out
just if the token that must follow them is next: a list before ')', the
value of a return before ';'. Hence a wrong token in such a place is
reported by the piece, not by the token after it.
-/
import JackSyntax.Parse.Recognizer

namespace JackSyntax

namespace Recognizer

-- ============================================================ pieces

/-- What a rule recognizes, within a class of the given name. -/
def rule (owner : String) (rule : Rule) :
    Recognizer (Part.rule rule).Value :=
  part owner (.rule rule)

/-- Items for as long as another one is introduced; yields the sum of
what they yield. -/
def many (owner : String) (item : Item) : Recognizer Nat :=
  part owner (.many item)

/-- A primitive type or the name of a class. -/
def type : Recognizer Token := take Kind.types

/-- Names with commas between them; yields how many. -/
def names (owner : String) : Recognizer Nat := do
  pass .identifier
  let more ← many owner .name
  return 1 + more

/-- An expression in parentheses. -/
def condition (owner : String) : Recognizer Unit := do
  pass .openParen
  rule owner .expression
  pass .closeParen

/-- Statements in curly brackets. -/
def block (owner : String) : Recognizer Unit := do
  pass .openCurly
  rule owner .statements
  pass .closeCurly

/-- An index in square brackets, if there is one. -/
def optionalIndex (owner : String) : Recognizer Unit := do
  if (← peek) = .openBracket then
    pass .openBracket
    rule owner .expression
    pass .closeBracket

-- ====================================================== declarations

def classDec : Recognizer String := do
  pass .kwClass
  let name ← take [.identifier]
  record (.header name.value name.position.line)
  pass .openCurly
  let _ ← many name.value .classVarDec
  let _ ← many name.value .subroutineDec
  pass .closeCurly
  return name.value

def classVarDec (owner : String) : Recognizer Unit := do
  let _ ← take Kind.classVarHeads
  let _ ← type
  let _ ← names owner
  pass .semicolon

def subroutineDec (owner : String) : Recognizer Unit := do
  let keyword ← take Kind.subroutineHeads
  let returnType ← take Kind.returnTypes
  let name ← take [.identifier]
  pass .openParen
  let parameters ← rule owner .parameterList
  pass .closeParen
  let locals ← rule owner .subroutineBody
  record (.subroutine
    { name := qualify owner name.value
      kind := (SubroutineKind.ofKind? keyword.kind).getD .function
      returnType := returnType.value
      parameters := parameters
      locals := locals
      line := name.position.line })

/-- Yields the number of parameters. -/
def parameterList (owner : String) : Recognizer Nat := do
  if (← peek) = .closeParen then
    return 0
  else
    let _ ← type
    pass .identifier
    let more ← many owner .parameter
    return 1 + more

/-- Yields the number of local variables. -/
def subroutineBody (owner : String) : Recognizer Nat := do
  pass .openCurly
  let locals ← many owner .varDec
  rule owner .statements
  pass .closeCurly
  return locals

/-- Yields the number of variables declared. -/
def varDec (owner : String) : Recognizer Nat := do
  pass .kwVar
  let _ ← type
  let count ← names owner
  pass .semicolon
  return count

-- ======================================================= statements

/-- The statement that the next token introduces. -/
def statement (owner : String) : Recognizer Unit := do
  match ← peek with
  | .kwLet => rule owner .letStatement
  | .kwIf => rule owner .ifStatement
  | .kwWhile => rule owner .whileStatement
  | .kwDo => rule owner .doStatement
  | .kwReturn => rule owner .returnStatement
  | _ => refuse .statementExpected

/-- Statements up to the first token that introduces none. -/
def statements (owner : String) : Recognizer Unit := do
  let _ ← many owner .statement

def letStatement (owner : String) : Recognizer Unit := do
  pass .kwLet
  pass .identifier
  optionalIndex owner
  pass .equals
  rule owner .expression
  pass .semicolon

def ifStatement (owner : String) : Recognizer Unit := do
  pass .kwIf
  condition owner
  block owner
  if (← peek) = .kwElse then
    pass .kwElse
    block owner

def whileStatement (owner : String) : Recognizer Unit := do
  pass .kwWhile
  condition owner
  block owner

def returnStatement (owner : String) : Recognizer Unit := do
  pass .kwReturn
  if (← peek) ≠ .semicolon then
    rule owner .expression
  pass .semicolon

-- ============================================================ calls

/-- A call after its first name, which is accepted already: bare, or
with a dot and a second name. Yields the record of the call, which is
made when the call is complete. -/
def subroutineCall (owner : String) (first : Token) : Recognizer Call := do
  let separator ← take [.openParen, .dot]
  let bare := separator.kind = .openParen
  let target ←
    if bare then pure (qualify owner first.value)
    else do
      let second ← take [.identifier]
      pass .openParen
      pure (qualify first.value second.value)
  let arguments ← rule owner .expressionList
  pass .closeParen
  let call : Call := ⟨target, arguments, bare, first.position.line⟩
  record (.call call)
  return call

def doStatement (owner : String) : Recognizer Unit := do
  pass .kwDo
  let first ← take [.identifier]
  let _ ← subroutineCall owner first
  pass .semicolon

/-- Yields the number of expressions. -/
def expressionList (owner : String) : Recognizer Nat := do
  if (← peek) = .closeParen then
    return 0
  else
    rule owner .expression
    let more ← many owner .expression
    return 1 + more

-- ====================================================== expressions

/-- A term that starts with a name: a call, an element of an array, or
the name alone. -/
def namedTerm (owner : String) : Recognizer Unit := do
  let first ← take [.identifier]
  match ← peek with
  | .openParen | .dot =>
    let _ ← subroutineCall owner first
  | _ => optionalIndex owner

def term (owner : String) : Recognizer Unit := do
  match ← peek with
  | .number => pass .number
  | .string => pass .string
  | .kwTrue | .kwFalse | .kwNull | .kwThis =>
    let _ ← take Kind.constants
  | .identifier => namedTerm owner
  | .openParen => condition owner
  | .dash | .tilde =>
    let _ ← take Kind.unaryOperators
    rule owner .term
  | _ => refuse .termExpected

def expression (owner : String) : Recognizer Unit := do
  rule owner .term
  let _ ← many owner .operand

-- ============================================ the bodies of the parts

/-- One item, from the token that introduces it. Yields what the item
counts for: a declaration of local variables for each of its names, any
other item for one. -/
def item (owner : String) : Item → Recognizer Nat
  | .classVarDec => do
    rule owner .classVarDec
    return 1
  | .subroutineDec => do
    rule owner .subroutineDec
    return 1
  | .parameter => do
    pass .comma
    let _ ← type
    pass .identifier
    return 1
  | .varDec => rule owner .varDec
  | .name => do
    pass .comma
    pass .identifier
    return 1
  | .statement => do
    statement owner
    return 1
  | .operand => do
    let _ ← take Kind.operators
    rule owner .term
    return 1
  | .expression => do
    pass .comma
    rule owner .expression
    return 1

/-- An item and then further ones, if one is introduced. -/
def repetition (owner : String) (repeated : Item) : Recognizer Nat := do
  if repeated.heads.contains (← peek) then
    let one ← item owner repeated
    let more ← many owner repeated
    return one + more
  else
    return 0

/-- What a part consists of. A class makes the name for its own parts
and does not use the one it is given. -/
def body (owner : String) : (part : Part) → Recognizer part.Value
  | .rule .classDec => classDec
  | .rule .classVarDec => classVarDec owner
  | .rule .subroutineDec => subroutineDec owner
  | .rule .parameterList => parameterList owner
  | .rule .subroutineBody => subroutineBody owner
  | .rule .varDec => varDec owner
  | .rule .statements => statements owner
  | .rule .letStatement => letStatement owner
  | .rule .ifStatement => ifStatement owner
  | .rule .whileStatement => whileStatement owner
  | .rule .doStatement => doStatement owner
  | .rule .returnStatement => returnStatement owner
  | .rule .expression => expression owner
  | .rule .term => term owner
  | .rule .expressionList => expressionList owner
  | .many repeated => repetition owner repeated

end Recognizer

end JackSyntax
