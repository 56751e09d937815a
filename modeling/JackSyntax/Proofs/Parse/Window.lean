/-
How the window of a parser moves. The window is all that a parser knows
of its source: the next token, and what the source still holds. Between
two parsers stands the list of the tokens that were passed over, and
`Parser.Reaches` relates the three.

A run that succeeds passes over the leaves of a forest and appends its
trace; `Parser.Passes` says so, and it composes along rows of trees.
-/
import JackSyntax.Proofs.Parse.Evaluation
import JackSyntax.Proofs.Parse.Readings

namespace JackSyntax

namespace Parser

-- ========================================================== the window

/-- What a parser knows of its source. -/
def window (parser : Parser) : Token × TokenSource :=
  (parser.lookahead, parser.source)

theorem lookahead_eq_of_window {first second : Parser}
    (h : first.window = second.window) :
    first.lookahead = second.lookahead := congrArg Prod.fst h

theorem window_advance {first second : Parser}
    (h : first.window = second.window) :
    first.advance.window = second.advance.window := by
  have hsource : first.source = second.source := congrArg Prod.snd h
  simp only [window, advance, hsource]

/-- Passing over the tokens takes the window of the first parser to the
window of the second. -/
def Reaches : Parser → List Token → Parser → Prop
  | first, [], second => first.window = second.window
  | first, token :: tokens, second =>
    first.lookahead = token ∧ first.advance.Reaches tokens second

theorem Reaches.refl (parser : Parser) : parser.Reaches [] parser := rfl

/-- Only the windows matter. -/
theorem Reaches.congr {first first' second second' : Parser}
    {tokens : List Token} (h : first.Reaches tokens second)
    (hfirst : first.window = first'.window)
    (hsecond : second.window = second'.window) :
    first'.Reaches tokens second' := by
  induction tokens generalizing first first' with
  | nil => exact hfirst.symm.trans (Eq.trans h hsecond)
  | cons token tokens ih =>
    exact ⟨(lookahead_eq_of_window hfirst).symm.trans h.1,
      ih h.2 (window_advance hfirst)⟩

theorem reaches_append {first second : Parser} {before after : List Token} :
    first.Reaches (before ++ after) second
      ↔ ∃ middle, first.Reaches before middle
          ∧ middle.Reaches after second := by
  induction before generalizing first with
  | nil =>
    constructor
    · intro h
      exact ⟨first, .refl first, h⟩
    · rintro ⟨middle, hfirst, hsecond⟩
      exact hsecond.congr (Eq.symm hfirst) rfl
  | cons token before ih =>
    rw [List.cons_append, Reaches, ih]
    constructor
    · rintro ⟨hhead, middle, hbefore, hafter⟩
      exact ⟨middle, ⟨hhead, hbefore⟩, hafter⟩
    · rintro ⟨middle, ⟨hhead, hbefore⟩, hafter⟩
      exact ⟨hhead, middle, hbefore, hafter⟩

theorem Reaches.trans {first middle last : Parser}
    {before after : List Token} (hbefore : first.Reaches before middle)
    (hafter : middle.Reaches after last) :
    first.Reaches (before ++ after) last :=
  reaches_append.2 ⟨middle, hbefore, hafter⟩

/-- The same tokens lead to one window only. -/
theorem Reaches.unique {first second second' : Parser}
    {tokens : List Token} (h : first.Reaches tokens second)
    (h' : first.Reaches tokens second') :
    second.window = second'.window := by
  induction tokens generalizing first with
  | nil => exact (Eq.symm h).trans h'
  | cons token tokens ih => exact ih h.2 h'.2

/-- Before the tokens are passed over, the first of them is next. -/
theorem Reaches.lookahead_kind {first second : Parser}
    {tokens : List Token} (h : first.Reaches tokens second) :
    first.lookahead.kind = firstKind tokens second.lookahead.kind := by
  cases tokens with
  | nil => exact congrArg Token.kind (lookahead_eq_of_window h)
  | cons token tokens => exact congrArg Token.kind h.1

/-- Accepting a token passes over it. -/
theorem Reaches.cons {parser last : Parser} {tokens : List Token}
    {entry : Entry}
    (h : (parser.advance.mark entry).Reaches tokens last) :
    parser.Reaches (parser.lookahead :: tokens) last :=
  ⟨rfl, h.congr rfl rfl⟩

@[simp] theorem window_note (parser : Parser) (left : Note) :
    (parser.note left).window = parser.window := rfl

theorem window_exit (parser : Parser) (rule : Rule) :
    (parser.exit rule).window = parser.window := by
  unfold exit
  split <;> rfl

theorem window_closePart (parser : Parser) (part : Part) :
    (parser.closePart part).window = parser.window := by
  cases part with
  | rule rule => exact parser.window_exit rule
  | many item => rfl

-- ================================================== lists of tokens

/-- The tokens of a list are ahead: the first of them is next, and the
source holds the rest. -/
def Ahead (parser : Parser) (tokens : List Token) : Prop :=
  ∃ last, parser.window = (TokenSource.list ⟨tokens, last⟩).next

theorem ahead_start (tokens : List Token) (limit : Nat) :
    (start (.ofTokens tokens) limit).Ahead tokens := ⟨.start, rfl⟩

theorem Ahead.lookahead {parser : Parser} {token : Token}
    {tokens : List Token} (h : parser.Ahead (token :: tokens)) :
    parser.lookahead = token := by
  obtain ⟨last, hwindow⟩ := h
  have hnext : (TokenSource.list ⟨token :: tokens, last⟩).next.1
      = token := by
    by_cases heof : token.kind = .eof <;>
      simp [TokenSource.next, TokenQueue.next, heof]
  exact (congrArg Prod.fst hwindow).trans hnext

theorem Ahead.advance {parser : Parser} {token : Token}
    {tokens : List Token} (h : parser.Ahead (token :: tokens))
    (hplain : token.kind ≠ .eof) : parser.advance.Ahead tokens := by
  obtain ⟨last, hwindow⟩ := h
  have hsource : parser.source
      = (TokenSource.list ⟨token :: tokens, last⟩).next.2 :=
    congrArg Prod.snd hwindow
  have hnext : (TokenSource.list ⟨token :: tokens, last⟩).next.2
      = .list ⟨tokens, ⟨token.position.line,
          token.position.column + token.value.length⟩⟩ := by
    simp [TokenSource.next, TokenQueue.next, hplain]
  refine ⟨⟨token.position.line,
    token.position.column + token.value.length⟩, ?_⟩
  rw [← hnext, ← hsource]
  rfl

/-- A list that holds no end of input is passed over from its start to
what comes after it. -/
theorem Ahead.exists_reaches {parser : Parser} {before after : List Token}
    (h : parser.Ahead (before ++ after))
    (hplain : ∀ token ∈ before, token.kind ≠ .eof) :
    ∃ middle, parser.Reaches before middle ∧ middle.Ahead after := by
  induction before generalizing parser with
  | nil => exact ⟨parser, .refl parser, h⟩
  | cons token before ih =>
    obtain ⟨hkind, hothers⟩ := List.forall_mem_cons.1 hplain
    obtain ⟨middle, hreaches, hahead⟩ := ih (h.advance hkind) hothers
    exact ⟨middle, ⟨h.lookahead, hreaches⟩, hahead⟩

/-- What was passed over, none of it an end of input, was at the start of
the list, and the rest of the list is still ahead. -/
theorem Ahead.of_reaches {parser middle : Parser}
    {tokens before : List Token} (h : parser.Ahead tokens)
    (hreaches : parser.Reaches before middle)
    (hplain : ∀ token ∈ before, token.kind ≠ .eof) :
    ∃ after, tokens = before ++ after ∧ middle.Ahead after := by
  induction before generalizing parser tokens with
  | nil =>
    obtain ⟨last, hwindow⟩ := h
    exact ⟨tokens, rfl, last, (Eq.symm hreaches).trans hwindow⟩
  | cons token before ih =>
    obtain ⟨hhead, htail⟩ := hreaches
    obtain ⟨hkind, hothers⟩ := List.forall_mem_cons.1 hplain
    cases tokens with
    | nil =>
      -- a list that is used up has only ends of input to hand out
      obtain ⟨last, hwindow⟩ := h
      have heof : parser.lookahead = .eof last := congrArg Prod.fst hwindow
      rw [← hhead, heof] at hkind
      exact absurd rfl hkind
    | cons first tokens =>
      obtain rfl : first = token := h.lookahead.symm.trans hhead
      obtain ⟨after, rfl, hahead⟩ := ih (h.advance hkind) htail hothers
      exact ⟨after, rfl, hahead⟩

-- ===================================================== opening a rule

/-- A rule is opened within the limit: its entry is added and, if it is
counted, the depth goes up. -/
theorem enter_of_lt {parser : Parser} {rule : Rule}
    (h : rule.isCounted = true → parser.depth < parser.limit) :
    parser.enter rule = .done ()
      { parser with
        trace := parser.trace.push (.enter rule)
        depth := parser.depth + if rule.isCounted then 1 else 0 } := by
  unfold enter
  cases hrule : rule.isCounted with
  | true =>
    rw [if_pos rfl, descend, if_pos (h hrule)]
    rfl
  | false => rfl

/-- Beyond the limit a counted rule is not opened. -/
theorem enter_of_le {parser : Parser} {rule : Rule}
    (hcounted : rule.isCounted = true)
    (h : parser.limit ≤ parser.depth) :
    parser.enter rule
      = parser.deeper.reject (.nestingTooDeep parser.limit) := by
  unfold enter
  rw [if_pos hcounted, descend, if_neg (Nat.not_lt.2 h)]
  rfl

theorem exit_eq (parser : Parser) (rule : Rule) :
    parser.exit rule =
      { parser with
        trace := parser.trace.push (.exit rule)
        depth := parser.depth - if rule.isCounted then 1 else 0 } := by
  unfold exit
  split <;> rfl

/-- A rule that is opened is opened within the limit. -/
theorem enter_done {parser entered : Parser} {rule : Rule}
    (h : parser.enter rule = .done () entered) :
    (rule.isCounted = true → parser.depth < parser.limit)
      ∧ entered = { parser with
          trace := parser.trace.push (.enter rule)
          depth := parser.depth + if rule.isCounted then 1 else 0 } := by
  by_cases hlt : rule.isCounted = true → parser.depth < parser.limit
  · rw [enter_of_lt hlt] at h
    cases h
    exact ⟨hlt, rfl⟩
  · simp only [Classical.not_imp, Nat.not_lt] at hlt
    rw [enter_of_le hlt.1 hlt.2] at h
    cases h

/-- A rule that cannot be opened is a counted one at the limit. -/
theorem enter_failed {parser after : Parser} {rule : Rule}
    {error : SyntaxError} (h : parser.enter rule = .failed error after) :
    rule.isCounted = true ∧ parser.limit ≤ parser.depth
      ∧ error = .atToken (.nestingTooDeep parser.limit) parser.lookahead
      ∧ after = parser.deeper := by
  by_cases hlt : rule.isCounted = true → parser.depth < parser.limit
  · rw [enter_of_lt hlt] at h
    cases h
  · simp only [Classical.not_imp, Nat.not_lt] at hlt
    rw [enter_of_le hlt.1 hlt.2] at h
    cases h
    exact ⟨hlt.1, hlt.2, rfl, rfl⟩

/-- A part that cannot be opened is a counted rule at the limit. The
error points at the next token, and no token is lost. -/
theorem openPart_failed {parser after : Parser} {part : Part}
    {error : SyntaxError} (h : parser.openPart part = .failed error after) :
    (∃ rule, part = .rule rule ∧ rule.isCounted = true)
      ∧ parser.limit ≤ parser.depth
      ∧ error = .atToken (.nestingTooDeep parser.limit) parser.lookahead
      ∧ after = parser.deeper := by
  cases part with
  | many item => cases h
  | rule rule =>
    obtain ⟨hcounted, hfailed⟩ := enter_failed h
    exact ⟨⟨rule, rfl, hcounted⟩, hfailed⟩

/-- A part that is opened within the limit stays within it, and the depth
it adds is that of its tree. -/
theorem openPart_done {parser entered : Parser} {part : Part}
    (h : parser.openPart part = .done () entered) :
    entered.window = parser.window ∧ entered.limit = parser.limit
      ∧ (parser.depth ≤ parser.limit → entered.depth ≤ parser.limit)
      ∧ ∀ inside, entered.depth + inside.depth
          = parser.depth + (part.wrap inside).depth := by
  cases part with
  | many item =>
    cases h
    exact ⟨rfl, rfl, id, fun _ => rfl⟩
  | rule rule =>
    obtain ⟨hlt, rfl⟩ := enter_done h
    refine ⟨rfl, rfl, fun hle => ?_, fun inside => ?_⟩
    · simp only
      split
      · exact hlt ‹_›
      · exact hle
    · simp only [Part.wrap, Forest.depth]
      omega

-- ================================================== passing a forest

/-- From the parser on, the forest has been passed over and traced, and
the notes have been left; the depth is what it was. -/
structure Passes (parser : Parser) (forest : Forest) (notes : List Note)
    (after : Parser) : Prop where
  reaches : parser.Reaches forest.leaves after
  trace : after.trace.toList = parser.trace.toList ++ forest.entries
  notes : after.notes.toList = parser.notes.toList ++ notes
  depth : after.depth = parser.depth
  limit : after.limit = parser.limit

namespace Passes

theorem refl (parser : Parser) : parser.Passes .nil [] parser where
  reaches := .refl parser
  trace := (List.append_nil _).symm
  notes := (List.append_nil _).symm
  depth := rfl
  limit := rfl

theorem append {first middle last : Parser} {front back : Forest}
    {before after : List Note} (hfront : first.Passes front before middle)
    (hback : middle.Passes back after last) :
    first.Passes (front ++ back) (before ++ after) last where
  reaches := by
    rw [Forest.leaves_append]
    exact hfront.reaches.trans hback.reaches
  trace := by
    rw [hback.trace, hfront.trace, Forest.entries_append, List.append_assoc]
  notes := by rw [hback.notes, hfront.notes, List.append_assoc]
  depth := hback.depth.trans hfront.depth
  limit := hback.limit.trans hfront.limit

/-- A token is accepted before the rest. -/
theorem leaf {parser after : Parser} {rest : Forest} {notes : List Note}
    (h : (parser.advance.mark (.terminal parser.lookahead)).Passes rest
      notes after) :
    parser.Passes (.leaf parser.lookahead rest) notes after where
  reaches := h.reaches.cons
  trace := by
    have htrace := h.trace
    simp only [mark, Trace.toList_push, List.append_assoc] at htrace
    exact htrace
  notes := h.notes
  depth := h.depth
  limit := h.limit

/-- A note is left before the rest. -/
theorem note {parser after : Parser} {forest : Forest} {left : Note}
    {notes : List Note} (h : (parser.note left).Passes forest notes after) :
    parser.Passes forest (left :: notes) after where
  reaches := h.reaches.congr (parser.window_note left) rfl
  trace := h.trace
  notes := by
    have hnotes := h.notes
    simp only [Parser.note, Array.toList_push, List.append_assoc] at hnotes
    exact hnotes
  depth := h.depth
  limit := h.limit

/-- A rule is opened and closed around the rest. -/
theorem node {parser entered before : Parser} {rule : Rule}
    {inside : Forest} {notes : List Note}
    (hopen : parser.enter rule = .done () entered)
    (h : entered.Passes inside notes before) :
    parser.Passes (.node rule inside .nil) notes (before.exit rule) := by
  obtain ⟨-, rfl⟩ := enter_done hopen
  refine ⟨?_, ?_, ?_, ?_, ?_⟩
  · rw [Forest.leaves, Forest.leaves, List.append_nil]
    exact h.reaches.congr rfl (before.window_exit rule).symm
  · have htrace := h.trace
    rw [exit_eq]
    simp only [Trace.toList_push, List.append_assoc] at htrace ⊢
    rw [htrace, List.append_assoc, List.append_assoc]
    rfl
  · rw [exit_eq]
    exact h.notes
  · have hdepth := h.depth
    rw [exit_eq]
    simp only at hdepth ⊢
    omega
  · rw [exit_eq]
    exact h.limit

/-- A part is opened and closed around the rest. -/
theorem part {parser entered before : Parser} {part : Part}
    {inside : Forest} {notes : List Note}
    (hopen : parser.openPart part = .done () entered)
    (h : entered.Passes inside notes before) :
    parser.Passes (part.wrap inside) notes (before.closePart part) := by
  cases part with
  | rule rule => exact node hopen h
  | many item =>
    cases hopen
    exact h

/-- Between two parsers there is one forest. -/
theorem forest_unique {parser after : Parser} {first second : Forest}
    {notes notes' : List Note} (hfirst : parser.Passes first notes after)
    (hsecond : parser.Passes second notes' after) : first = second := by
  have htrace : parser.trace.toList ++ first.entries
      = parser.trace.toList ++ second.entries :=
    hfirst.trace.symm.trans hsecond.trace
  exact Forest.entries_inj (List.append_cancel_left htrace)

end Passes

end Parser

end JackSyntax
