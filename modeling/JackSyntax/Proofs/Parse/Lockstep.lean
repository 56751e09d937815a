/-
Two runs in lockstep. From parsers whose tokens have the same kinds one by
one, recognizers that decide alike take the same steps (`Runs.alike`): if
one fails so does the other, at the same point and for the same reason.
The induction is on the first run; the second is built beside it.

What is common to the two is said by `Parser.Alike`. It holds of the
kinds that a source has to hand out as well, however many are asked for,
since that is all that a recognizer can learn of it without accepting.
-/
import Mathlib.Data.List.Forall2
import JackSyntax.Proofs.Parse.Alike
import JackSyntax.Proofs.Parse.Evaluation

namespace JackSyntax

variable {α : Type}

-- ================================================== sources of one sort

/-- The sources hand out tokens of the same kinds, one by one. -/
def TokenSource.Alike (source other : TokenSource) : Prop :=
  ∀ count, (source.take count).map Token.kind
    = (other.take count).map Token.kind

namespace TokenSource

theorem Alike.next {source other : TokenSource} (h : source.Alike other) :
    source.next.1.kind = other.next.1.kind
      ∧ source.next.2.Alike other.next.2 := by
  constructor
  · exact (List.cons.inj (h 1)).1
  · exact fun count => (List.cons.inj (h (count + 1))).2

/-- Lists of tokens of the same kinds are sources of one sort. -/
theorem alike_list {tokens tokens' : List Token}
    (h : tokens.map Token.kind = tokens'.map Token.kind)
    (last last' : Position) :
    (list ⟨tokens, last⟩).Alike (list ⟨tokens', last'⟩) := by
  intro count
  induction count generalizing tokens tokens' last last' with
  | zero => rfl
  | succ count ih =>
    cases tokens with
    | nil =>
      obtain rfl := List.map_eq_nil_iff.1 h.symm
      exact congrArg (List.cons Kind.eof) (ih rfl last last')
    | cons token rest =>
      obtain ⟨token', rest', rfl, hkind, hrest⟩ :=
        List.map_eq_cons_iff.1 h.symm
      by_cases heof : token.kind = .eof
      · simp only [take, next, TokenQueue.next, heof, hkind, if_true,
          List.map_cons]
        exact congrArg _ (ih h last last')
      · simp only [take, next, TokenQueue.next, heof, hkind, if_false,
          List.map_cons]
        exact congrArg _ (ih hrest.symm _ _)

theorem alike_ofTokens {tokens tokens' : List Token}
    (h : tokens.map Token.kind = tokens'.map Token.kind) :
    (ofTokens tokens).Alike (ofTokens tokens') :=
  alike_list h .start .start

end TokenSource

-- ================================================== parsers of one sort

/-- The parsers have come equally far, and what they have recorded and
what is ahead of them differs only in the texts and the places of
tokens. -/
structure Parser.Alike (parser parser' : Parser) : Prop where
  lookahead : parser.lookahead.kind = parser'.lookahead.kind
  source : parser.source.Alike parser'.source
  trace : List.Forall₂ Entry.Alike parser.trace.toList parser'.trace.toList
  notes : List.Forall₂ Note.Alike parser.notes.toList parser'.notes.toList
  depth : parser.depth = parser'.depth
  limit : parser.limit = parser'.limit

namespace Parser.Alike

variable {parser parser' : Parser}

theorem start {source other : TokenSource} (h : source.Alike other)
    (limit : Nat) : (Parser.start source limit).Alike (.start other limit) where
  lookahead := h.next.1
  source := h.next.2
  trace := .nil
  notes := .nil
  depth := rfl
  limit := rfl

theorem mark (h : parser.Alike parser') {entry entry' : Entry}
    (hentry : entry.Alike entry') :
    (parser.mark entry).Alike (parser'.mark entry') where
  lookahead := h.lookahead
  source := h.source
  trace := by
    simp only [Parser.mark, Trace.toList_push]
    exact List.rel_append h.trace (.cons hentry .nil)
  notes := h.notes
  depth := h.depth
  limit := h.limit

theorem advance (h : parser.Alike parser') :
    parser.advance.Alike parser'.advance where
  lookahead := h.source.next.1
  source := h.source.next.2
  trace := h.trace
  notes := h.notes
  depth := h.depth
  limit := h.limit

/-- The next token of each is accepted. -/
theorem accept (h : parser.Alike parser') :
    (parser.advance.mark (.terminal parser.lookahead)).Alike
      (parser'.advance.mark (.terminal parser'.lookahead)) :=
  h.advance.mark (.terminal h.lookahead)

theorem note (h : parser.Alike parser') {left left' : Note}
    (hnote : left.Alike left') :
    (parser.note left).Alike (parser'.note left') where
  lookahead := h.lookahead
  source := h.source
  trace := h.trace
  notes := by
    simp only [Parser.note, Array.toList_push]
    exact List.rel_append h.notes (.cons hnote .nil)
  depth := h.depth
  limit := h.limit

theorem deeper (h : parser.Alike parser') :
    parser.deeper.Alike parser'.deeper where
  lookahead := h.lookahead
  source := h.source
  trace := h.trace
  notes := h.notes
  depth := congrArg (· + 1) h.depth
  limit := h.limit

theorem ascend (h : parser.Alike parser') :
    parser.ascend.Alike parser'.ascend where
  lookahead := h.lookahead
  source := h.source
  trace := h.trace
  notes := h.notes
  depth := congrArg (· - 1) h.depth
  limit := h.limit

theorem exit (h : parser.Alike parser') (rule : Rule) :
    (parser.exit rule).Alike (parser'.exit rule) := by
  unfold Parser.exit
  split
  · exact (h.mark (.exit rule)).ascend
  · exact h.mark (.exit rule)

theorem closePart (h : parser.Alike parser') (part : Part) :
    (parser.closePart part).Alike (parser'.closePart part) := by
  cases part with
  | rule rule => exact h.exit rule
  | many item => exact h

end Parser.Alike

/-- Both succeed with values that are related, or both fail for the same
reason, each at its next token. -/
inductive Outcome.Alike (same : α → α → Prop) : Outcome α → Outcome α → Prop
  | done {value value' : α} {after after' : Parser}
    (hvalue : same value value') (h : after.Alike after') :
    Alike same (.done value after) (.done value' after')
  | failed {after after' : Parser} (reason : Reason)
    (h : after.Alike after') :
    Alike same (after.reject reason) (after'.reject reason)

namespace Outcome.Alike

variable {same : α → α → Prop} {outcome' : Outcome α} {after : Parser}

theorem of_done {value : α} (h : Alike same (.done value after) outcome') :
    ∃ value' after', outcome' = .done value' after' ∧ same value value'
      ∧ after.Alike after' := by
  generalize hdone : Outcome.done value after = outcome at h
  cases h with
  | done hvalue h =>
    cases hdone
    exact ⟨_, _, rfl, hvalue, h⟩
  | failed reason h => cases hdone

theorem of_failed {error : SyntaxError}
    (h : Alike same (.failed error after) outcome') :
    ∃ reason after', error = .atToken reason after.lookahead
      ∧ outcome' = after'.reject reason ∧ after.Alike after' := by
  generalize hfailed : Outcome.failed error after = outcome at h
  cases h with
  | done hvalue h => cases hfailed
  | failed reason h =>
    cases hfailed
    exact ⟨reason, _, rfl, rfl, h⟩

end Outcome.Alike

namespace Parser.Alike

variable {parser parser' : Parser}

/-- A counted rule is within the limit for both parsers or for neither. -/
theorem descend (h : parser.Alike parser') :
    parser.descend.Alike Eq parser'.descend := by
  unfold Parser.descend
  rw [← h.depth, ← h.limit]
  split
  · exact .done rfl h.deeper
  · exact .failed _ h.deeper

/-- A part is opened from both parsers or from neither. -/
theorem openPart (h : parser.Alike parser') (part : Part) :
    (parser.openPart part).Alike Eq (parser'.openPart part) := by
  cases part with
  | many item => exact .done rfl h
  | rule rule =>
    have hopened : (if rule.isCounted then parser.descend
        else .done () parser).Alike Eq
        (if rule.isCounted then parser'.descend else .done () parser') := by
      split
      · exact h.descend
      · exact .done rfl h
    show (parser.enter rule).Alike Eq (parser'.enter rule)
    unfold Parser.enter
    generalize (if rule.isCounted then parser.descend
      else .done () parser) = opened at hopened
    generalize (if rule.isCounted then parser'.descend
      else .done () parser') = opened' at hopened
    cases hopened with
    | done _ hafter => exact .done rfl (hafter.mark (.enter rule))
    | failed reason hafter => exact .failed reason hafter

end Parser.Alike

-- ====================================================== runs in lockstep

namespace Recognizer

/-- Recognizers that decide alike, run from parsers of one sort, accept
tokens of the same kinds and come to outcomes of one sort. -/
theorem Runs.alike {recognizer other : Recognizer α}
    {parser parser' : Parser} {tokens : List Token} {outcome : Outcome α}
    {same : α → α → Prop} (h : recognizer.Runs parser tokens outcome)
    (hparser : parser.Alike parser') (halike : recognizer.Alike same other) :
    ∃ tokens' outcome', other.Runs parser' tokens' outcome'
      ∧ tokens.map Token.kind = tokens'.map Token.kind
      ∧ outcome.Alike same outcome' := by
  induction h generalizing parser' with
  | done value parser =>
    cases halike with
    | done hvalue => exact ⟨[], _, .done _ _, rfl, .done hvalue hparser⟩
  | look _ ih =>
    cases halike with
    | look hnext =>
      obtain ⟨tokens', outcome', hruns, hkinds, houtcome⟩ :=
        ih hparser (hnext _)
      rw [hparser.lookahead] at hruns
      exact ⟨tokens', outcome', .look hruns, hkinds, houtcome⟩
  | accept hkind _ ih =>
    cases halike with
    | accept hnext =>
      obtain ⟨tokens', outcome', hruns, hkinds, houtcome⟩ :=
        ih hparser.accept (hnext _ _ hparser.lookahead)
      rw [hparser.lookahead] at hkind
      refine ⟨_, outcome', .accept hkind hruns, ?_, houtcome⟩
      rw [List.map_cons, List.map_cons, hparser.lookahead, hkinds]
  | reject hkind =>
    cases halike with
    | accept hnext =>
      rw [hparser.lookahead] at hkind
      exact ⟨[], _, .reject hkind, rfl, .failed _ hparser⟩
  | refuse reason parser =>
    cases halike with
    | refuse => exact ⟨[], _, .refuse reason _, rfl, .failed _ hparser⟩
  | note _ ih =>
    cases halike with
    | note hnote hnext =>
      obtain ⟨tokens', outcome', hruns, hkinds, houtcome⟩ :=
        ih (hparser.note hnote) hnext
      exact ⟨tokens', outcome', .note hruns, hkinds, houtcome⟩
  | @shut _ _ part _ _ _ _ hopen =>
    cases halike with
    | call hnext =>
      obtain ⟨reason, after', rfl, hopen', hafter⟩ :=
        (hopen ▸ hparser.openPart part).of_failed
      exact ⟨[], _, .shut hopen', rfl, .failed reason hafter⟩
  | @stuck _ owner part _ _ _ _ _ _ hopen _ ih =>
    cases halike with
    | @call _ owner' _ _ _ hnext =>
      obtain ⟨_, entered', hopen', -, hentered⟩ :=
        (hopen ▸ hparser.openPart part).of_done
      obtain ⟨tokens', outcome', hruns, hkinds, houtcome⟩ :=
        ih hentered (alike_body owner owner' part)
      obtain ⟨reason, after', rfl, rfl, hafter⟩ := houtcome.of_failed
      exact ⟨tokens', _, .stuck hopen' hruns, hkinds, .failed reason hafter⟩
  | @through _ owner part _ _ _ _ _ _ _ _ hopen _ _ ihBody ihNext =>
    cases halike with
    | @call _ owner' _ _ _ hnext =>
      obtain ⟨_, entered', hopen', -, hentered⟩ :=
        (hopen ▸ hparser.openPart part).of_done
      obtain ⟨front, _, hbody, hfront, hinside⟩ :=
        ihBody hentered (alike_body owner owner' part)
      obtain ⟨value', inside', rfl, hvalue, hclosed⟩ := hinside.of_done
      obtain ⟨back, outcome', hruns, hback, houtcome⟩ :=
        ihNext (hclosed.closePart part) (hnext _ _ hvalue)
      refine ⟨front ++ back, outcome', .through hopen' hbody hruns, ?_,
        houtcome⟩
      rw [List.map_append, List.map_append, hfront, hback]

end Recognizer

end JackSyntax
