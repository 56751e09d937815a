/-
The grammar as data: for each rule the phrase that it stands for, and
which forests a phrase derives. Nothing here says how a text is to be
recognized; there is no lookahead and no order among alternatives. It is
what a recognizer is measured against.

A rule gives a tree of its own to the forest. Types, names, statements,
blocks and calls are phrases without a rule, so what they derive becomes
part of the row in which they stand.
-/
import JackSyntax.Grammar.Forest

namespace JackSyntax

-- ========================================================== phrases

/-- The right side of a rule. -/
inductive Phrase
  /-- One token of one of the kinds. -/
  | token (kinds : List Kind)
  /-- The tree of a rule. -/
  | rule (rule : Rule)
  | nothing
  | next (first second : Phrase)
  | either (first second : Phrase)
  /-- Any number of times. -/
  | repeated (phrase : Phrase)
  deriving DecidableEq, Repr

namespace Phrase

/-- One phrase after the other. -/
def sequence : List Phrase → Phrase
  | [] => .nothing
  | [phrase] => phrase
  | phrase :: phrases => .next phrase (sequence phrases)

/-- One of the phrases. -/
def choice : List Phrase → Phrase
  | [] => .token []
  | [phrase] => phrase
  | phrase :: phrases => .either phrase (choice phrases)

def kind (kind : Kind) : Phrase := .token [kind]

def optional (phrase : Phrase) : Phrase := .either .nothing phrase

/-- One or more, with commas between them. -/
def commaSeparated (phrase : Phrase) : Phrase :=
  .next phrase (.repeated (.next (kind .comma) phrase))

-- ================================================= phrases without rule

def name : Phrase := kind .identifier

def type : Phrase := .token Kind.types

def statement : Phrase :=
  choice [.rule .letStatement, .rule .ifStatement, .rule .whileStatement,
    .rule .doStatement, .rule .returnStatement]

def block : Phrase :=
  sequence [kind .openCurly, .rule .statements, kind .closeCurly]

def parenthesized : Phrase :=
  sequence [kind .openParen, .rule .expression, kind .closeParen]

def index : Phrase :=
  sequence [kind .openBracket, .rule .expression, kind .closeBracket]

def subroutineCall : Phrase :=
  choice [
    sequence [name, kind .openParen, .rule .expressionList,
      kind .closeParen],
    sequence [name, kind .dot, name, kind .openParen,
      .rule .expressionList, kind .closeParen]]

end Phrase

open Phrase in
/-- What a rule consists of. -/
def Rule.content : Rule → Phrase
  | .classDec =>
    sequence [kind .kwClass, name, kind .openCurly,
      .repeated (.rule .classVarDec), .repeated (.rule .subroutineDec),
      kind .closeCurly]
  | .classVarDec =>
    sequence [.token [.kwStatic, .kwField], type, commaSeparated name,
      kind .semicolon]
  | .subroutineDec =>
    sequence [.token [.kwConstructor, .kwFunction, .kwMethod],
      choice [kind .kwVoid, type], name, kind .openParen,
      .rule .parameterList, kind .closeParen, .rule .subroutineBody]
  | .parameterList => optional (commaSeparated (.next type name))
  | .subroutineBody =>
    sequence [kind .openCurly, .repeated (.rule .varDec),
      .rule .statements, kind .closeCurly]
  | .varDec =>
    sequence [kind .kwVar, type, commaSeparated name, kind .semicolon]
  | .statements => .repeated statement
  | .letStatement =>
    sequence [kind .kwLet, name, optional index, kind .equals,
      .rule .expression, kind .semicolon]
  | .ifStatement =>
    sequence [kind .kwIf, parenthesized, block,
      optional (.next (kind .kwElse) block)]
  | .whileStatement => sequence [kind .kwWhile, parenthesized, block]
  | .doStatement =>
    sequence [kind .kwDo, subroutineCall, kind .semicolon]
  | .returnStatement =>
    sequence [kind .kwReturn, optional (.rule .expression),
      kind .semicolon]
  | .expression =>
    .next (.rule .term)
      (.repeated (.next (.token Kind.operators) (.rule .term)))
  | .term =>
    choice [kind .number, kind .string, .token Kind.constants,
      .next name (optional index), subroutineCall, parenthesized,
      .next (.token Kind.unaryOperators) (.rule .term)]
  | .expressionList => optional (commaSeparated (.rule .expression))

-- ======================================================== derivations

/-- The forests that a phrase derives. -/
inductive Derives : Phrase → Forest → Prop
  | token {kinds : List Kind} {token : Token} (h : token.kind ∈ kinds) :
    Derives (.token kinds) (.leaf token .nil)
  | rule {rule : Rule} {inside : Forest}
    (h : Derives rule.content inside) :
    Derives (.rule rule) (.node rule inside .nil)
  | nothing : Derives .nothing .nil
  | next {first second : Phrase} {forest rest : Forest}
    (hfirst : Derives first forest) (hsecond : Derives second rest) :
    Derives (.next first second) (forest ++ rest)
  | left {first second : Phrase} {forest : Forest}
    (h : Derives first forest) : Derives (.either first second) forest
  | right {first second : Phrase} {forest : Forest}
    (h : Derives second forest) : Derives (.either first second) forest
  | stop {phrase : Phrase} : Derives (.repeated phrase) .nil
  | more {phrase : Phrase} {forest rest : Forest}
    (hone : Derives phrase forest)
    (hrest : Derives (.repeated phrase) rest) :
    Derives (.repeated phrase) (forest ++ rest)

/-- The derivations of a whole class: one tree, of the rule for it. -/
def IsClass (forest : Forest) : Prop := Derives (.rule .classDec) forest

/-- The kinds of a sentence of the grammar. -/
def IsSentence (kinds : List Kind) : Prop :=
  ∃ forest, IsClass forest ∧ forest.leaves.map Token.kind = kinds

end JackSyntax
