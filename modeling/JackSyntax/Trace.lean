/-
Traces: what a recogniser met on its way, as one flat list. A rule of
the grammar leaves an entry where it starts and one where it ends, and
every token that was accepted leaves a terminal between them.

The list records a tree when its entries are well nested, but nothing
here assumes that they are; the renderings are defined for any list of
entries and each entry has one line, or one part, of its own.
-/
import JackSyntax.Token

namespace JackSyntax

-- ============================================================= rules

/-- The rules of the grammar that show in a trace. -/
inductive Rule
  | classDec | classVarDec | subroutineDec | parameterList
  | subroutineBody | varDec | statements | letStatement | ifStatement
  | whileStatement | doStatement | returnStatement | expression | term
  | expressionList
  deriving DecidableEq, Repr, Inhabited

namespace Rule

def all : List Rule :=
  [.classDec, .classVarDec, .subroutineDec, .parameterList,
    .subroutineBody, .varDec, .statements, .letStatement, .ifStatement,
    .whileStatement, .doStatement, .returnStatement, .expression, .term,
    .expressionList]

/-- The name of the rule in every rendering. -/
def tag : Rule → String
  | .classDec => "class"
  | .classVarDec => "classVarDec"
  | .subroutineDec => "subroutineDec"
  | .parameterList => "parameterList"
  | .subroutineBody => "subroutineBody"
  | .varDec => "varDec"
  | .statements => "statements"
  | .letStatement => "letStatement"
  | .ifStatement => "ifStatement"
  | .whileStatement => "whileStatement"
  | .doStatement => "doStatement"
  | .returnStatement => "returnStatement"
  | .expression => "expression"
  | .term => "term"
  | .expressionList => "expressionList"

/-- The rules whose nesting is limited: every way in which the grammar
comes back to itself passes through one of them. -/
def isCounted : Rule → Bool
  | .statements | .expression | .term => true
  | _ => false

/-- The rule that a tag names. -/
def ofTag? (tag : String) : Option Rule := all.find? (·.tag == tag)

/-- A rule is read back from its tag. -/
theorem ofTag?_tag (rule : Rule) : ofTag? rule.tag = some rule := by
  cases rule <;> decide

end Rule

-- ============================================================ traces

/-- One entry of a trace. -/
inductive Entry
  | enter (rule : Rule)
  | exit (rule : Rule)
  | terminal (token : Token)
  deriving DecidableEq, Repr

/-- The entries of a trace, oldest first. -/
structure Trace where
  entries : Array Entry
  deriving DecidableEq, Repr

namespace Trace

def empty : Trace := ⟨#[]⟩

def push (trace : Trace) (entry : Entry) : Trace :=
  ⟨trace.entries.push entry⟩

def toList (trace : Trace) : List Entry := trace.entries.toList

def ofList (entries : List Entry) : Trace := ⟨entries.toArray⟩

def length (trace : Trace) : Nat := trace.entries.size

def isEmpty (trace : Trace) : Bool := trace.entries.isEmpty

@[simp] theorem toList_empty : empty.toList = [] := rfl

@[simp] theorem toList_push (trace : Trace) (entry : Entry) :
    (trace.push entry).toList = trace.toList ++ [entry] := by
  simp [toList, push]

@[simp] theorem toList_ofList (entries : List Entry) :
    (ofList entries).toList = entries := by
  simp [toList, ofList]

@[simp] theorem ofList_toList (trace : Trace) :
    ofList trace.toList = trace := by
  simp [toList, ofList]

end Trace

-- ========================================================= nesting

/-- With the given rules open, innermost first, every exit closes the
innermost open rule, no terminal comes while none is open, and none is
open at the end. -/
def closesFrom : (opened : List Rule) → List Entry → Bool
  | opened, [] => opened.isEmpty
  | opened, .enter rule :: entries => closesFrom (rule :: opened) entries
  | [], .exit _ :: _ => false
  | rule :: opened, .exit rule' :: entries =>
    rule == rule' && closesFrom opened entries
  | [], .terminal _ :: _ => false
  | rule :: opened, .terminal _ :: entries =>
    closesFrom (rule :: opened) entries

/-- The entries are those of a sequence of complete rules. -/
def Trace.isWellNested (trace : Trace) : Bool :=
  closesFrom [] trace.toList

-- ============================================================= XML

/-- One line of XML, indented by two blanks for each open rule. -/
def xmlLine (depth : Nat) (text : String) : String :=
  String.ofList (List.replicate (2 * depth) ' ') ++ text ++ "\n"

/-- The lines of the entries, with so many rules open before them. An
exit with no rule open stays at the margin. -/
def xmlLines : (depth : Nat) → List Entry → List String
  | _, [] => []
  | depth, .enter rule :: entries =>
    xmlLine depth ("<" ++ rule.tag ++ ">") :: xmlLines (depth + 1) entries
  | depth, .exit rule :: entries =>
    xmlLine (depth - 1) ("</" ++ rule.tag ++ ">")
      :: xmlLines (depth - 1) entries
  | depth, .terminal token :: entries =>
    xmlLine depth token.xml :: xmlLines depth entries

/-- The trace as XML, one line for each entry. -/
def Trace.xml (trace : Trace) : String :=
  String.join (xmlLines 0 trace.toList)

-- ==================================================== s-expressions

/-- What an entry adds to an s-expression. -/
def Entry.part : Entry → String
  | .enter rule => "(" ++ rule.tag
  | .exit _ => ")"
  | .terminal token => token.value

/-- Drops the blank before each closing parenthesis, reading from the
front; of several blanks in a row only the last one goes. -/
def closeUp : List Char → List Char
  | [] => []
  | ' ' :: ')' :: cs => ')' :: closeUp cs
  | c :: cs => c :: closeUp cs

/-- The trace on one line: a rule in parentheses after its tag, a
terminal as its bare value, and blanks between them. -/
def Trace.sexpr (trace : Trace) : String :=
  let line := " ".intercalate (trace.toList.map Entry.part)
  String.ofList (closeUp line.toList)

end JackSyntax
