/-
Recognizers: programs that read tokens, written down as data. A
recognizer can look at the kind of the next token, accept the token if
its kind is allowed, give up, leave a note, and hand over to a part of
the grammar. It cannot do anything else; in particular it decides by
kinds alone, sees one token ahead, and cannot step over a token that it
has not asked for by kind. What follows from these restrictions holds
for every recognizer and need not be argued rule by rule.

A recognizer is a finite program because recursion goes through the
parts by name: `call` names a part, and the body of that part is another
recognizer.
-/
import JackSyntax.Trace
import JackSyntax.Record
import JackSyntax.SyntaxError

namespace JackSyntax

-- ============================================================ parts

/-- What the grammar repeats, each of them introduced by a kind of token
that nothing else after it starts with. -/
inductive Item
  | classVarDec | subroutineDec | parameter | varDec | name | statement
  | operand | expression
  deriving DecidableEq, Repr

/-- The kinds that introduce a further item. -/
def Item.heads : Item → List Kind
  | .classVarDec => Kind.classVarHeads
  | .subroutineDec => Kind.subroutineHeads
  | .varDec => [.kwVar]
  | .statement => Kind.statementHeads
  | .operand => Kind.operators
  | .parameter | .name | .expression => [.comma]

/-- The parts of the grammar: its rules, and the repetition of an item
for as long as another one is introduced. -/
inductive Part
  | rule (rule : Rule)
  | many (item : Item)
  deriving DecidableEq, Repr

/-- What recognizing a part yields: the name of the class, or how many
things were declared or listed, or nothing. -/
abbrev Part.Value : Part → Type
  | .rule .classDec => String
  | .rule .parameterList | .rule .subroutineBody | .rule .varDec
  | .rule .expressionList | .many _ => Nat
  | .rule _ => Unit

-- ====================================================== recognizers

/-- A program that reads tokens and yields a value. -/
inductive Recognizer (α : Type) : Type
  /-- Yields the value. -/
  | done (value : α)
  /-- Goes on as the kind of the next token says. -/
  | look (next : Kind → Recognizer α)
  /-- Accepts the next token, which must be of one of the kinds. -/
  | accept (kinds : List Kind) (next : Token → Recognizer α)
  /-- Rejects the next token. -/
  | refuse (reason : Reason)
  /-- Leaves a note. -/
  | note (left : Note) (next : Recognizer α)
  /-- Recognizes a part within a class of the given name. -/
  | call (owner : String) (part : Part) (next : part.Value → Recognizer α)

namespace Recognizer

variable {α β : Type}

/-- One program and then another that depends on its value. -/
def bind : Recognizer α → (α → Recognizer β) → Recognizer β
  | .done value, next => next value
  | .look choose, next => .look fun kind => (choose kind).bind next
  | .accept kinds rest, next =>
    .accept kinds fun token => (rest token).bind next
  | .refuse reason, _ => .refuse reason
  | .note left rest, next => .note left (rest.bind next)
  | .call owner part rest, next =>
    .call owner part fun value => (rest value).bind next

instance : Monad Recognizer where
  pure := .done
  bind := bind

-- ===================================================== single steps

/-- The kind of the next token. -/
def peek : Recognizer Kind := .look .done

/-- The next token, which must be of one of the kinds. -/
def take (kinds : List Kind) : Recognizer Token := .accept kinds .done

/-- Passes over the next token, which must be of the kind. -/
def pass (kind : Kind) : Recognizer Unit := .accept [kind] fun _ => .done ()

/-- Leaves a note. -/
def record (left : Note) : Recognizer Unit := .note left (.done ())

/-- Recognizes a part of a class of the given name. -/
def part (owner : String) (part : Part) : Recognizer part.Value :=
  .call owner part .done

end Recognizer

end JackSyntax
