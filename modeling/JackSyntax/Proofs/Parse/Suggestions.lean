/-
What an error suggests can be done. The reason of an error is a piece of
advice: these kinds would have been right here, or a term, or nothing at
all. `Reason.Guides` says when the advice is good, that is, when the
grammar has a sentence for each thing that is offered and the token
rejected is not offered itself.

Two readings of the bodies meet here. That a class begins with the tokens
accepted and any of the kinds offered after them is what conforming to
the grammar promises (`promises_of_failed`), and that something is
offered, but not what is there, is aptness (`Runs.isApt`).
-/
import JackSyntax.Proofs.Parse.Aptness
import JackSyntax.Proofs.Parse.Sequence

namespace JackSyntax

-- ============================================================ the advice

/-- Some sentence goes on after the kinds with this one. -/
def CanFollow (before : List Kind) (kind : Kind) : Prop :=
  ∃ sentence, IsSentence sentence ∧ before ++ [kind] <+: sentence

/-- After tokens of the kinds before, and at one of the kind found, the
reason is good advice. A statement is never missed, since the grammar
asks for none; that the nesting is too deep advises nothing. -/
def Reason.Guides (before : List Kind) (found : Kind) : Reason → Prop
  | .expected kinds =>
    kinds ≠ [] ∧ found ∉ kinds ∧ ∀ kind ∈ kinds, CanFollow before kind
  | .termExpected =>
    found ∉ Kind.termHeads ∧ ∀ kind ∈ Kind.termHeads, CanFollow before kind
  | .statementExpected => False
  | .trailingInput => found ≠ .eof ∧ IsSentence before
  | .nestingTooDeep _ => True

theorem Phrase.Begins.canFollow {before : List Kind} {kind : Kind}
    (h : (Phrase.rule .classDec).Begins (before ++ [kind])) :
    CanFollow before kind := by
  obtain ⟨forest, hclass, hbegin⟩ := h
  exact ⟨_, ⟨forest, hclass, rfl⟩, hbegin⟩

/-- An apt reason that promises beginnings of a class is good advice. -/
theorem Reason.IsApt.guides {reason : Reason} {found : Kind}
    {tokens : List Token} (hapt : reason.IsApt found)
    (h : (Phrase.rule .classDec).Promises tokens reason) :
    reason.Guides (tokens.map Token.kind) found := by
  obtain ⟨-, hoffers⟩ := h
  cases reason with
  | expected kinds =>
    exact ⟨hapt.1, hapt.2, fun kind hkind => (hoffers kind hkind).canFollow⟩
  | termExpected =>
    exact ⟨hapt, fun kind hkind => (hoffers kind hkind).canFollow⟩
  | statementExpected => exact hapt
  | trailingInput => exact hapt.elim
  | nestingTooDeep limit => trivial

-- ======================================================= whole classes

/-- The error of a class, within the rule or after it, is good advice. -/
theorem guides_of_runs {source : TokenSource} {limit : Nat}
    {tokens : List Token} {outcome : Outcome String} {error : SyntaxError}
    (h : (Recognizer.rule "" .classDec).Runs (.start source limit) tokens
      outcome)
    (herror : outcome.parsed = .error error) :
    error.reason.Guides (tokens.map Token.kind)
      outcome.after.lookahead.kind := by
  cases outcome with
  | failed found after =>
    cases herror
    obtain ⟨hpromises, -⟩ := promises_of_failed h
    exact (h.isApt (Recognizer.Apt.rule .classDec) rfl).guides hpromises
  | done name after =>
    -- the rule has come to its end, so what is wrong is what follows
    obtain ⟨forest, _, hclass, rfl, -, -⟩ := passes_class h
    rw [Outcome.parsed] at herror
    split at herror
    · cases herror
    · rename_i hnext
      cases herror
      exact ⟨hnext, forest, hclass, rfl⟩

/-- The error in a list of tokens that ends with an end of input is good
advice at the token at which it shows, after the tokens consumed. -/
theorem parse_error_guides {tokens : List Token} {last : Token}
    {limit : Nat} {error : SyntaxError}
    (hlast : tokens.getLast? = some last) (heof : last.kind = .eof)
    (h : parse (.ofTokens tokens) limit = .error error) :
    ∃ index token, tokens[index]? = some token
      ∧ consumed (.ofTokens tokens) limit = tokens.take index
      ∧ error = .atToken error.reason token
      ∧ error.reason.Guides ((tokens.take index).map Token.kind)
          token.kind := by
  obtain ⟨outcome, hruns, hresult, -⟩ :=
    exists_runs_consumed (.ofTokens tokens) limit
  have herror : outcome.parsed = .error error := hresult.symm.trans h
  obtain ⟨htake, hnext⟩ := take_eq_of_runs hruns hlast heof
  obtain ⟨-, hposition⟩ := begins_of_error hruns herror
  refine ⟨_, outcome.after.lookahead, hnext, htake.symm, hposition, ?_⟩
  rw [htake]
  exact guides_of_runs hruns herror

/-- After `class A{method int f(){return` a plus is where a term is
missing, and any term would do. -/
theorem parse_error_guides_term :
    ∃ tokens error, tokens.getLast? = some (Token.eof ⟨1, 33⟩)
      ∧ (Token.eof ⟨1, 33⟩).kind = .eof
      ∧ parse (.ofTokens tokens) 3 = .error error
      ∧ error.reason = .termExpected
      ∧ ∃ index token, tokens[index]? = some token
        ∧ consumed (.ofTokens tokens) 3 = tokens.take index
        ∧ error = .atToken error.reason token
        ∧ error.reason.Guides ((tokens.take index).map Token.kind)
            token.kind := by
  let tokens : List Token :=
    [⟨.kwClass, "class", ⟨1, 1⟩⟩, ⟨.identifier, "A", ⟨1, 7⟩⟩,
      ⟨.openCurly, "\x7b", ⟨1, 8⟩⟩, ⟨.kwMethod, "method", ⟨1, 9⟩⟩,
      ⟨.kwInt, "int", ⟨1, 16⟩⟩, ⟨.identifier, "f", ⟨1, 20⟩⟩,
      ⟨.openParen, "(", ⟨1, 21⟩⟩, ⟨.closeParen, ")", ⟨1, 22⟩⟩,
      ⟨.openCurly, "\x7b", ⟨1, 23⟩⟩, ⟨.kwReturn, "return", ⟨1, 24⟩⟩,
      ⟨.plus, "+", ⟨1, 31⟩⟩, ⟨.number, "1", ⟨1, 32⟩⟩, .eof ⟨1, 33⟩]
  have hfails : (match parse (.ofTokens tokens) 3 with
      | .ok _ => false
      | .error error => error.reason == .termExpected) = true := by
    decide +kernel
  split at hfails
  · cases hfails
  · rename_i error hparse
    exact ⟨tokens, error, rfl, rfl, hparse, beq_iff_eq.1 hfails,
      parse_error_guides rfl rfl hparse⟩

end JackSyntax
