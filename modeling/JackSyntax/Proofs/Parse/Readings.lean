/-
Three readings of the text of a recognizer. They say, without running
it, which forests it can go through (`Builds`), whether it goes through
a given forest if it looks ahead into it (`Follows`), and after which
tokens it can fail (`Stalls`). All three take a call of a part for
granted: it does what the phrase of the part says.

The phrases of the parts come first, and what an error promises: that the
tokens before it are a beginning of the phrase, and that they still are
with a kind after them that its reason offers. Each reading of a sequence
is made of the readings of its two halves.
-/
import JackSyntax.Parse.Rules
import JackSyntax.Proofs.Grammar.Prefix

namespace JackSyntax

variable {α β : Type}

-- ================================================ the phrases of parts

/-- The phrase of one item. -/
def Item.phrase : Item → Phrase
  | .classVarDec => .rule .classVarDec
  | .subroutineDec => .rule .subroutineDec
  | .parameter => .next (.kind .comma) (.next .type .name)
  | .varDec => .rule .varDec
  | .name => .next (.kind .comma) .name
  | .statement => .statement
  | .operand => .next (.token Kind.operators) (.rule .term)
  | .expression => .next (.kind .comma) (.rule .expression)

/-- The kinds that can follow the last item of a repetition. -/
def Item.follow : Item → List Kind
  | .classVarDec => Kind.subroutineEnds
  | .subroutineDec | .statement => [.closeCurly]
  | .parameter | .expression => [.closeParen]
  | .varDec => Kind.statementEnds
  | .name => [.semicolon]
  | .operand => Kind.expressionEnds

namespace Part

/-- The phrase of a part. -/
def phrase : Part → Phrase
  | .rule entered => .rule entered
  | .many item => .repeated item.phrase

/-- The phrase of the body of a part. -/
def content : Part → Phrase
  | .rule entered => entered.content
  | .many item => .repeated item.phrase

/-- The row that a part adds when its body goes through the forest: the
tree of a rule, or just the items of a repetition. -/
def wrap : Part → Forest → Forest
  | .rule entered, inside => .node entered inside .nil
  | .many _, inside => inside

/-- The kinds that can follow a part. -/
def follow : Part → List Kind
  | .rule entered => entered.follow
  | .many item => item.follow

theorem derives_wrap {part : Part} {inside : Forest}
    (h : Derives part.content inside) :
    Derives part.phrase (part.wrap inside) := by
  cases part with
  | rule entered => exact .rule h
  | many item => exact h

theorem exists_of_derives {part : Part} {forest : Forest}
    (h : Derives part.phrase forest) :
    ∃ inside, Derives part.content inside ∧ forest = part.wrap inside := by
  cases part with
  | rule entered => exact derives_rule_iff.1 h
  | many item => exact ⟨forest, h, rfl⟩

theorem exists_derives (part : Part) :
    ∃ forest, Derives part.phrase forest := by
  cases part with
  | rule entered => exact exists_derives_rule entered
  | many item => exact ⟨.nil, .stop⟩

@[simp] theorem leaves_wrap (part : Part) (inside : Forest) :
    (part.wrap inside).leaves = inside.leaves := by
  cases part with
  | rule entered =>
    rw [wrap, Forest.leaves, Forest.leaves, List.append_nil]
  | many item => rfl

end Part

-- ========================================================== the offers

/-- The kinds with which, by its reason, an error might have been
avoided. -/
def Reason.offers : Reason → List Kind
  | .expected kinds => kinds
  | .termExpected => Kind.termHeads
  | .statementExpected => Kind.statementHeads
  | .trailingInput => [.eof]
  | .nestingTooDeep _ => []

/-- The tokens are a beginning of the phrase, and so they are with any of
the kinds after them that the reason offers. -/
def Phrase.Promises (phrase : Phrase) (tokens : List Token)
    (reason : Reason) : Prop :=
  phrase.Begins (tokens.map Token.kind)
    ∧ ∀ kind ∈ reason.offers,
        phrase.Begins (tokens.map Token.kind ++ [kind])

-- ======================================================= the readings

/-- What is taken for granted about parts: the forest and the notes that
a part of a class can leave, and the value that it can yield. -/
abbrev Account :=
  String → (part : Part) → Forest → List Note → part.Value → Prop

/-- The class whose records a part holds: a class makes its own name,
every other part is given one. -/
def Part.scope : (part : Part) → (owner : String) → part.Value → String
  | .rule .classDec, _, name => name
  | _, owner, _ => owner

namespace Recognizer

/-- The recognizer can go through the forest, leave the notes and yield
the value, however its looks turn out. -/
def Builds (account : Account) :
    Recognizer α → Forest → List Note → α → Prop
  | .done value, forest, notes, result =>
    forest = .nil ∧ notes = [] ∧ result = value
  | .look next, forest, notes, result =>
    ∃ kind, (next kind).Builds account forest notes result
  | .accept kinds next, forest, notes, result =>
    ∃ token rest, forest = .leaf token rest ∧ token.kind ∈ kinds
      ∧ (next token).Builds account rest notes result
  | .refuse _, _, _, _ => False
  | .note left next, forest, notes, result =>
    ∃ rest, notes = left :: rest ∧ next.Builds account forest rest result
  | .call owner part next, forest, notes, result =>
    ∃ front back before after value, forest = front ++ back
      ∧ notes = before ++ after ∧ account owner part front before value
      ∧ (next value).Builds account back after result

/-- The account by which a part leaves what its phrase derives. -/
def derived : Account := fun _ part forest _ _ => Derives part.phrase forest

/-- With the forest and then the kind ahead, the recognizer goes through
the forest. -/
def Follows : Recognizer α → Forest → Kind → Prop
  | .done _, forest, _ => forest = .nil
  | .look next, forest, after =>
    (next (forest.firstKind after)).Follows forest after
  | .accept kinds next, forest, after =>
    ∃ token rest, forest = .leaf token rest ∧ token.kind ∈ kinds
      ∧ (next token).Follows rest after
  | .refuse _, _, _ => False
  | .note _ next, forest, after => next.Follows forest after
  | .call _ part next, forest, after =>
    ∃ front back, forest = front ++ back ∧ Derives part.phrase front
      ∧ back.firstKind after ∈ part.follow
      ∧ ∀ value, (next value).Follows back after

/-- The recognizer can pass over the tokens and then fail for the
reason, however its looks turn out. -/
def Stalls : Recognizer α → List Token → Reason → Prop
  | .done _, _, _ => False
  | .look next, tokens, reason => ∃ kind, (next kind).Stalls tokens reason
  | .accept kinds next, tokens, reason =>
    (tokens = [] ∧ reason = .expected kinds)
      ∨ ∃ token rest, tokens = token :: rest ∧ token.kind ∈ kinds
          ∧ (next token).Stalls rest reason
  | .refuse given, tokens, reason => tokens = [] ∧ reason = given
  | .note _ next, tokens, reason => next.Stalls tokens reason
  | .call _ part next, tokens, reason =>
    part.phrase.Promises tokens reason
      ∨ ∃ front value rest, tokens = front.leaves ++ rest
          ∧ Derives part.phrase front ∧ (next value).Stalls rest reason

-- =============================================== readings of sequences

theorem builds_bind {account : Account} {first : Recognizer α}
    {next : α → Recognizer β} {forest : Forest} {notes : List Note}
    {result : β} (h : (first.bind next).Builds account forest notes result) :
    ∃ front back before after value, forest = front ++ back
      ∧ notes = before ++ after ∧ first.Builds account front before value
      ∧ (next value).Builds account back after result := by
  induction first generalizing forest notes with
  | done value =>
    exact ⟨.nil, forest, [], notes, value, rfl, rfl, ⟨rfl, rfl, rfl⟩, h⟩
  | look choose ih =>
    obtain ⟨kind, h⟩ := h
    obtain ⟨front, back, before, after, value, hforest, hnotes, hfirst,
      hnext⟩ := ih kind h
    exact ⟨front, back, before, after, value, hforest, hnotes,
      ⟨kind, hfirst⟩, hnext⟩
  | accept kinds rest ih =>
    obtain ⟨token, tail, rfl, hkind, h⟩ := h
    obtain ⟨front, back, before, after, value, rfl, hnotes, hfirst,
      hnext⟩ := ih token h
    exact ⟨.leaf token front, back, before, after, value, rfl, hnotes,
      ⟨token, front, rfl, hkind, hfirst⟩, hnext⟩
  | refuse reason => cases h
  | note left rest ih =>
    obtain ⟨tail, rfl, h⟩ := h
    obtain ⟨front, back, before, after, value, hforest, rfl, hfirst,
      hnext⟩ := ih h
    exact ⟨front, back, left :: before, after, value, hforest, rfl,
      ⟨before, rfl, hfirst⟩, hnext⟩
  | call owner part rest ih =>
    obtain ⟨front', back', before', after', value', rfl, rfl, hpart, h⟩ := h
    obtain ⟨front, back, before, after, value, rfl, rfl, hfirst, hnext⟩ :=
      ih value' h
    refine ⟨front' ++ front, back, before' ++ before, after, value,
      (Forest.append_assoc _ _ _).symm, (List.append_assoc _ _ _).symm,
      ?_, hnext⟩
    exact ⟨front', front, before', before, value', rfl, rfl, hpart, hfirst⟩

/-- What starts with a token goes through a leaf first. -/
theorem exists_of_builds_take {account : Account} {kinds : List Kind}
    {next : Token → Recognizer α} {forest : Forest} {notes : List Note}
    {result : α}
    (h : (take kinds >>= next).Builds account forest notes result) :
    ∃ token rest, forest = .leaf token rest ∧ token.kind ∈ kinds
      ∧ (next token).Builds account rest notes result := h

theorem exists_of_builds_pass {account : Account} {kind : Kind}
    {next : Unit → Recognizer α} {forest : Forest} {notes : List Note}
    {result : α}
    (h : (pass kind >>= next).Builds account forest notes result) :
    ∃ token rest, forest = .leaf token rest ∧ token.kind ∈ [kind]
      ∧ (next ()).Builds account rest notes result := h

/-- What looks ahead goes on as for some kind. -/
theorem exists_of_builds_look {account : Account}
    {next : Kind → Recognizer α} {forest : Forest} {notes : List Note}
    {result : α}
    (h : (peek >>= next).Builds account forest notes result) :
    ∃ kind, (next kind).Builds account forest notes result := h

theorem follows_bind {first : Recognizer α} {next : α → Recognizer β}
    {front back : Forest} {after : Kind}
    (hfirst : first.Follows front (back.firstKind after))
    (hnext : ∀ value, (next value).Follows back after) :
    (first.bind next).Follows (front ++ back) after := by
  induction first generalizing front with
  | done value =>
    obtain rfl : front = .nil := hfirst
    exact hnext value
  | look choose ih =>
    have h := ih _ hfirst
    rw [← Forest.firstKind_append] at h
    exact h
  | accept kinds rest ih =>
    obtain ⟨token, tail, rfl, hkind, hfirst⟩ := hfirst
    exact ⟨token, tail ++ back, rfl, hkind, ih token hfirst⟩
  | refuse reason => cases hfirst
  | note left rest ih => exact ih hfirst
  | call owner part rest ih =>
    obtain ⟨one, two, rfl, hpart, hfollow, hfirst⟩ := hfirst
    rw [Forest.append_assoc]
    refine ⟨one, two ++ back, rfl, hpart, ?_, ?_⟩
    · rwa [Forest.firstKind_append]
    · intro value
      exact ih value (hfirst value)

theorem stalls_bind {first : Recognizer α} {next : α → Recognizer β}
    {tokens : List Token} {reason : Reason}
    (h : (first.bind next).Stalls tokens reason) :
    first.Stalls tokens reason
      ∨ ∃ front notes value rest, tokens = front.leaves ++ rest
          ∧ first.Builds derived front notes value
          ∧ (next value).Stalls rest reason := by
  induction first generalizing tokens with
  | done value =>
    exact .inr ⟨.nil, [], value, tokens, rfl, ⟨rfl, rfl, rfl⟩, h⟩
  | look choose ih =>
    obtain ⟨kind, h⟩ := h
    rcases ih kind h with h | ⟨front, notes, value, rest, rfl, hfirst, hnext⟩
    · exact .inl ⟨kind, h⟩
    · exact .inr ⟨front, notes, value, rest, rfl, ⟨kind, hfirst⟩, hnext⟩
  | accept kinds tail ih =>
    rcases h with h | ⟨token, rest, rfl, hkind, h⟩
    · exact .inl (.inl h)
    rcases ih token h with h | ⟨front, notes, value, rest, rfl, hfirst, hnext⟩
    · exact .inl (.inr ⟨token, rest, rfl, hkind, h⟩)
    · exact .inr ⟨.leaf token front, notes, value, rest, rfl,
        ⟨token, front, rfl, hkind, hfirst⟩, hnext⟩
  | refuse given => exact .inl h
  | note left tail ih =>
    rcases ih h with h | ⟨front, notes, value, rest, rfl, hfirst, hnext⟩
    · exact .inl h
    · exact .inr ⟨front, left :: notes, value, rest, rfl,
        ⟨notes, rfl, hfirst⟩, hnext⟩
  | call owner part tail ih =>
    rcases h with h | ⟨one, given, rest, rfl, hpart, h⟩
    · exact .inl (.inl h)
    rcases ih given h with h | ⟨front, notes, value, rest, rfl, hfirst, hnext⟩
    · exact .inl (.inr ⟨one, given, rest, rfl, hpart, h⟩)
    · refine .inr ⟨one ++ front, notes, value, rest, ?_, ?_, hnext⟩
      · rw [Forest.leaves_append, List.append_assoc]
      · exact ⟨one, front, [], notes, given, rfl, rfl, hpart, hfirst⟩

end Recognizer

end JackSyntax
