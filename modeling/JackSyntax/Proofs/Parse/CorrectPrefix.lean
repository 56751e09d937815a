/-
Where an error shows. A run that fails has accepted tokens after which
the recognizer can fail (`Runs.stalls`), and so, as the bodies conform to
their phrases, tokens with which some class begins.

That no class begins with one token more is not seen from the run that
failed. It is seen from the others: a class that began so would be
parsed (`parse_of_depth_le`), but its run could not have differed from the
failed one up to the token at which that failed (`parse_eq_of_reaches`).
-/
import JackSyntax.Proofs.Parse.Completeness
import JackSyntax.Proofs.Parse.Stability

namespace JackSyntax

variable {α : Type}

-- ======================================================== runs that fail

theorem Part.promises {part : Part} {tokens : List Token} {reason : Reason}
    (h : part.content.Promises tokens reason) :
    part.phrase.Promises tokens reason := by
  cases part with
  | rule entered => exact h.rule
  | many item => exact h

/-- A run that fails stalls after the tokens that it accepted, and the
error points at the token after them. -/
theorem Recognizer.Runs.stalls {recognizer : Recognizer α}
    {parser after : Parser} {tokens : List Token} {outcome : Outcome α}
    {error : SyntaxError} (h : recognizer.Runs parser tokens outcome)
    (hfailed : outcome = .failed error after) :
    recognizer.Stalls tokens error.reason
      ∧ error = .atToken error.reason after.lookahead := by
  induction h generalizing after with
  | done value parser => cases hfailed
  | look _ ih =>
    obtain ⟨hstalls, herror⟩ := ih hfailed
    exact ⟨⟨_, hstalls⟩, herror⟩
  | accept hkind _ ih =>
    obtain ⟨hstalls, herror⟩ := ih hfailed
    exact ⟨.inr ⟨_, _, rfl, hkind, hstalls⟩, herror⟩
  | reject hkind =>
    cases hfailed
    exact ⟨.inl ⟨rfl, rfl⟩, rfl⟩
  | refuse reason parser =>
    cases hfailed
    exact ⟨⟨rfl, rfl⟩, rfl⟩
  | note _ ih => exact ih hfailed
  | @shut _ _ part _ _ _ _ hopen =>
    cases hfailed
    obtain ⟨-, -, rfl, rfl⟩ := Parser.openPart_failed hopen
    exact ⟨.inl ⟨.empty part.exists_derives,
      fun kind hkind => absurd hkind List.not_mem_nil⟩, rfl⟩
  | @stuck _ owner part _ _ _ _ _ _ hopen _ ih =>
    cases hfailed
    obtain ⟨hstalls, herror⟩ := ih rfl
    exact ⟨.inl (Part.promises
      ((conforms_body owner part).promises hstalls)), herror⟩
  | @through _ owner part _ _ _ _ _ _ value _ _ hbody _ _ ihNext =>
    obtain ⟨hstalls, herror⟩ := ihNext hfailed
    obtain ⟨inside, notes, hbuilds, rfl, -⟩ := hbody.passes derived_body rfl
    refine ⟨.inr ⟨part.wrap inside, value, _, ?_, ?_, hstalls⟩, herror⟩
    · rw [Part.leaves_wrap]
    · exact derived_body owner part inside notes value hbuilds

/-- Where the rule of a class fails, a class begins with the tokens that
were accepted, and the error points at the token after them. -/
theorem promises_of_failed {parser after : Parser} {tokens : List Token}
    {error : SyntaxError}
    (h : (Recognizer.rule "" .classDec).Runs parser tokens
      (.failed error after)) :
    (Phrase.rule .classDec).Promises tokens error.reason
      ∧ error = .atToken error.reason after.lookahead := by
  obtain ⟨hstalls, herror⟩ := h.stalls rfl
  rcases hstalls with hpromises | ⟨_, _, _, -, -, hnever⟩
  · exact ⟨hpromises, herror⟩
  · cases hnever

-- ================================================== errors of a class

/-- A class begins with the tokens before an error, and the error points
at the token after them. -/
theorem begins_of_error {parser : Parser} {tokens : List Token}
    {outcome : Outcome String} {error : SyntaxError}
    (h : (Recognizer.rule "" .classDec).Runs parser tokens outcome)
    (herror : outcome.parsed = .error error) :
    (Phrase.rule .classDec).Begins (tokens.map Token.kind)
      ∧ error = .atToken error.reason outcome.after.lookahead := by
  cases outcome with
  | failed found after =>
    cases herror
    obtain ⟨hpromises, hposition⟩ := promises_of_failed h
    exact ⟨hpromises.1, hposition⟩
  | done name after =>
    obtain ⟨forest, _, hclass, rfl, -, -⟩ := passes_class h
    refine ⟨⟨forest, hclass, List.prefix_rfl⟩, ?_⟩
    rw [Outcome.parsed] at herror
    split at herror
    · cases herror
    · cases herror
      rfl

theorem isShallow_of_error {outcome : Outcome String}
    {error : SyntaxError} (herror : outcome.parsed = .error error)
    (hreason : ∀ limit, error.reason ≠ .nestingTooDeep limit) :
    outcome.IsShallow := by
  cases outcome with
  | done name after => trivial
  | failed found after =>
    cases herror
    exact hreason

/-- A beginning of a class has no end of input and nothing illegal. -/
theorem Phrase.Begins.isPlain {tokens : List Token}
    (h : (Phrase.rule .classDec).Begins (tokens.map Token.kind)) :
    ∀ token ∈ tokens, token.kind ≠ .eof ∧ token.kind ≠ .illegal := by
  obtain ⟨forest, hclass, hbegin⟩ := h
  intro token htoken
  have hmem : token.kind ∈ forest.leaves.map Token.kind :=
    hbegin.subset (List.mem_map_of_mem htoken)
  obtain ⟨leaf, hleaf, hkind⟩ := List.mem_map.1 hmem
  rw [← hkind]
  exact hclass.isPlain rfl leaf hleaf

/-- No class before an end of input goes on, after the tokens before an
error, with the token at which the error shows: it would have been
parsed. -/
theorem leaves_ne_of_error {source : TokenSource} {limit : Nat}
    {tokens : List Token} {outcome : Outcome String} {error : SyntaxError}
    (h : (Recognizer.rule "" .classDec).Runs (.start source limit) tokens
      outcome)
    (herror : outcome.parsed = .error error)
    (hshallow : outcome.IsShallow)
    {forest : Forest} {eof : Token} (hclass : IsClass forest)
    (heof : eof.kind = .eof) (rest : List Token) :
    forest.leaves ++ [eof] ≠ tokens ++ outcome.after.lookahead :: rest := by
  intro heq
  have hplain := (begins_of_error h herror).1.isPlain
  -- so high a limit that the class is not too deep
  obtain ⟨parsed, hparsed, -⟩ :=
    parse_of_depth_le hclass heof (Nat.le_max_right limit forest.depth)
  rw [heq] at hparsed
  obtain ⟨stop, hreaches, hstop⟩ :=
    (Parser.ahead_start (tokens ++ outcome.after.lookahead :: rest)
      (max limit forest.depth)).exists_reaches
      fun token htoken => (hplain token htoken).1
  have hsame := parse_eq_of_reaches h hreaches hstop.lookahead
    (Nat.le_max_left limit forest.depth) (.inr hshallow)
  rw [hparsed, herror] at hsame
  cases hsame

-- ========================================== the first impossible token

/-- At the index stands the token that is the first one impossible: the
tokens before it are a beginning of a class, and with it they are no
longer. An end of input is impossible where the class is not
complete. -/
structure FirstImpossible (tokens : List Token) (index : Nat)
    (token : Token) : Prop where
  found : tokens[index]? = some token
  begins : ∃ sentence, IsSentence sentence
    ∧ (tokens.take index).map Token.kind <+: sentence
  excluded : token.kind ≠ .eof → ∀ sentence, IsSentence sentence →
    ¬ (tokens.take (index + 1)).map Token.kind <+: sentence
  incomplete : token.kind = .eof →
    ¬ IsSentence ((tokens.take index).map Token.kind)
  legal : ∀ before ∈ tokens.take index, before.kind ≠ .illegal

/-- The same, for a list that is split at the token. -/
theorem FirstImpossible.of_append {before rest : List Token}
    {token : Token}
    (hbegins : ∃ sentence, IsSentence sentence
      ∧ before.map Token.kind <+: sentence)
    (hexcluded : token.kind ≠ .eof → ∀ sentence, IsSentence sentence →
      ¬ (before ++ [token]).map Token.kind <+: sentence)
    (hincomplete : token.kind = .eof →
      ¬ IsSentence (before.map Token.kind))
    (hlegal : ∀ other ∈ before, other.kind ≠ .illegal) :
    FirstImpossible (before ++ token :: rest) before.length token := by
  have htake : (before ++ token :: rest).take before.length = before :=
    List.take_left
  have htake' : (before ++ token :: rest).take (before.length + 1)
      = before ++ [token] := by
    rw [List.take_length_add_append]
    rfl
  constructor
  · rw [List.getElem?_append_right (Nat.le_refl _), Nat.sub_self]
    rfl
  · rwa [htake]
  · rwa [htake']
  · rwa [htake]
  · rwa [htake]

/-- A class that begins with the kinds of the tokens can be made to begin
with the tokens themselves. -/
theorem exists_leaves_append {forest : Forest} {tokens : List Token}
    (h : IsClass forest)
    (hbegin : tokens.map Token.kind <+: forest.leaves.map Token.kind) :
    ∃ other rest, IsClass other ∧ other.leaves = tokens ++ rest := by
  obtain ⟨kinds, hkinds⟩ := hbegin
  let rest : List Token := kinds.map fun kind => ⟨kind, "", .start⟩
  have hrest : rest.map Token.kind = kinds := by
    rw [List.map_map]
    exact List.map_id kinds
  have hall : (tokens ++ rest).map Token.kind
      = forest.leaves.map Token.kind := by
    rw [List.map_append, hrest, hkinds]
  obtain ⟨other, hother, hleaves⟩ := h.relabel hall
  exact ⟨other, rest, hother, hleaves⟩

/-- If a list of tokens that ends with an end of input is no class, the
error shows at the first impossible token, unless the nesting was too
deep. -/
theorem firstImpossible_of_error {tokens : List Token} {last : Token}
    {limit : Nat} {error : SyntaxError}
    (hlast : tokens.getLast? = some last) (heof : last.kind = .eof)
    (h : parse (.ofTokens tokens) limit = .error error)
    (hreason : ∀ bound, error.reason ≠ .nestingTooDeep bound) :
    ∃ index token, FirstImpossible tokens index token
      ∧ error.position = token.position
      ∧ error.location = .ofToken token := by
  obtain ⟨accepted, outcome, hruns, hresult⟩ :=
    exists_runs_parse (.ofTokens tokens) limit
  have herror : outcome.parsed = .error error := hresult.symm.trans h
  obtain ⟨hbegins, hposition⟩ := begins_of_error hruns herror
  have hshallow := isShallow_of_error herror hreason
  have hplain := hbegins.isPlain
  obtain ⟨rest, rfl, hahead⟩ := (Parser.ahead_start tokens limit).of_reaches
    hruns.reaches fun token htoken => (hplain token htoken).1
  cases rest with
  | nil =>
    rw [List.append_nil] at hlast
    exact absurd heof (hplain last (List.mem_of_getLast? hlast)).1
  | cons token rest =>
    have hnext : outcome.after.lookahead = token := hahead.lookahead
    rw [hnext] at hposition
    refine ⟨accepted.length, token, .of_append ?_ ?_ ?_ ?_, ?_, ?_⟩
    · obtain ⟨forest, hclass, hbegin⟩ := hbegins
      exact ⟨_, ⟨forest, hclass, rfl⟩, hbegin⟩
    · rintro - sentence ⟨forest, hclass, rfl⟩ hbegin
      obtain ⟨other, more, hother, hleaves⟩ :=
        exists_leaves_append hclass hbegin
      apply leaves_ne_of_error hruns herror hshallow hother heof
        (more ++ [last])
      rw [hleaves, hnext, List.append_assoc, List.append_assoc]
      rfl
    · rintro hkind ⟨forest, hclass, hkinds⟩
      obtain ⟨other, hother, hleaves⟩ := hclass.relabel hkinds.symm
      apply leaves_ne_of_error hruns herror hshallow hother hkind []
      rw [hleaves, hnext]
    · intro before hbefore
      exact (hplain before hbefore).2
    · rw [hposition]
      rfl
    · rw [hposition]
      rfl

/-- The illegal token after `class A{static int x` is the first impossible
one. -/
theorem firstImpossible_of_error_illegal :
    ∃ tokens error, tokens.getLast? = some (Token.eof ⟨1, 22⟩)
      ∧ (Token.eof ⟨1, 22⟩).kind = .eof
      ∧ parse (.ofTokens tokens) 0 = .error error
      ∧ (∀ bound, error.reason ≠ .nestingTooDeep bound)
      ∧ ∃ index token, FirstImpossible tokens index token
        ∧ error.position = token.position
        ∧ error.location = .ofToken token := by
  let tokens : List Token := [⟨.kwClass, "class", ⟨1, 1⟩⟩,
    ⟨.identifier, "A", ⟨1, 7⟩⟩, ⟨.openCurly, "\x7b", ⟨1, 8⟩⟩,
    ⟨.kwStatic, "static", ⟨1, 9⟩⟩, ⟨.kwInt, "int", ⟨1, 16⟩⟩,
    ⟨.identifier, "x", ⟨1, 20⟩⟩, ⟨.illegal, "?", ⟨1, 21⟩⟩,
    .eof ⟨1, 22⟩]
  have hfails : (match parse (.ofTokens tokens) 0 with
      | .ok _ => false
      | .error error => error.reason == .expected [.semicolon])
        = true := by decide +kernel
  split at hfails
  · cases hfails
  · rename_i error hparse
    have hreason : ∀ bound, error.reason ≠ .nestingTooDeep bound := by
      intro bound hdeep
      rw [hdeep] at hfails
      cases hfails
    exact ⟨tokens, error, rfl, rfl, hparse, hreason,
      firstImpossible_of_error rfl rfl hparse hreason⟩

end JackSyntax
