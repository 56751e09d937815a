/-
Which source is parsed makes no difference, only what it hands out. Two
sources with the same tokens have the same kinds of tokens for ever, so
runs over them go in lockstep and accept the same tokens; and as a
derivation is determined by its leaves (`IsClass.eq_of_leaves_eq`), what
is parsed is the same as a whole. The one thing in which the results can
differ is where an error at the end of input shows
(`parse_eq_of_tokens_eq`).

A text may be scanned on demand or beforehand, since a list of its tokens
ends where the text does.
-/
import JackSyntax.Proofs.Parse.Sequence

namespace JackSyntax

-- ================================================= leaves and derivations

/-- Of the same tokens there is one derivation of a class at most. -/
theorem IsClass.eq_of_leaves_eq {forest other : Forest}
    (h : IsClass forest) (hother : IsClass other)
    (hleaves : forest.leaves = other.leaves) : forest = other := by
  have heof : (Token.eof .start).kind = .eof := rfl
  -- under so high a limit that neither is too deep
  obtain ⟨parsed, hparse, htrace⟩ :=
    parse_of_depth_le h heof (Nat.le_max_left forest.depth other.depth)
  obtain ⟨parsed', hparse', htrace'⟩ :=
    parse_of_depth_le hother heof
      (Nat.le_max_right forest.depth other.depth)
  rw [hleaves, hparse'] at hparse
  cases hparse
  exact Forest.entries_inj (htrace.symm.trans htrace')

-- ===================================================== errors at the end

/-- The error, shown at another place if it is one at the end of input. -/
def SyntaxError.endAt (position : Position) (error : SyntaxError) :
    SyntaxError :=
  if error.location = .atEnd then { error with position := position }
  else error

namespace SyntaxError

variable {reason : Reason} {token eof : Token}

/-- Only the place is known of an end of input at which an error shows. -/
theorem endAt_atToken_of_eof (h : token.kind = .eof) (heof : eof.kind = .eof) :
    (atToken reason token).endAt eof.position = atToken reason eof := by
  have hlocation : Location.ofToken token = .atEnd := if_pos h
  have hlocation' : Location.ofToken eof = .atEnd := if_pos heof
  rw [endAt, atToken, if_pos hlocation, atToken, hlocation, hlocation']

theorem endAt_atToken_of_ne_eof (h : token.kind ≠ .eof)
    (position : Position) :
    (atToken reason token).endAt position = atToken reason token := by
  have hlocation : Location.ofToken token = .lexeme token.value := if_neg h
  rw [endAt, if_neg]
  rw [atToken, hlocation]
  exact fun hatEnd => by cases hatEnd

end SyntaxError

-- ================================================== sources of one list

section Sources

variable {source other : TokenSource} {limit : Nat}

/-- After the same tokens an error at the next token is the same for both
sources, but for the place of the end of input. -/
theorem endAt_atToken_of_runs {tokens : List Token}
    {outcome outcome' : Outcome String}
    (h : (Recognizer.rule "" .classDec).Runs (.start source limit) tokens
      outcome)
    (h' : (Recognizer.rule "" .classDec).Runs (.start other limit) tokens
      outcome')
    (htokens : source.tokens = other.tokens)
    (hkind : outcome.after.lookahead.kind = outcome'.after.lookahead.kind)
    (reason : Reason) :
    (SyntaxError.atToken reason outcome.after.lookahead).endAt
        other.ending.position
      = .atToken reason outcome'.after.lookahead := by
  by_cases heof : outcome.after.lookahead.kind = .eof
  · have heof' := hkind.symm.trans heof
    rw [← lookahead_eq_ending h' heof']
    exact SyntaxError.endAt_atToken_of_eof heof heof'
  · have hahead : outcome.after.upcoming = outcome'.after.upcoming := by
      rw [tokens_eq_of_runs h, tokens_eq_of_runs h',
        List.append_cancel_left_eq] at htokens
      exact htokens
    rw [Parser.upcoming, Parser.upcoming, if_neg heof,
      if_neg (hkind ▸ heof)] at hahead
    rw [SyntaxError.endAt_atToken_of_ne_eof heof, (List.cons.inj hahead).1]

/-- Sources with the same tokens are parsed to the same result, but for
the place of an error at the end of input. -/
theorem parse_eq_of_tokens_eq (h : source.tokens = other.tokens) :
    parse other limit
      = (parse source limit).mapError
          (SyntaxError.endAt other.ending.position) := by
  obtain ⟨outcome, hruns, hresult, -⟩ := exists_runs_consumed source limit
  generalize consumed source limit = tokens at hruns
  obtain ⟨tokens', outcome', hruns', hkinds, houtcome⟩ :=
    hruns.alike (.start (TokenSource.alike_of_tokens_eq h) limit)
      (Recognizer.Alike.rule "" "" .classDec)
  have hresult' : parse other limit = outcome'.parsed := by
    rw [parse_eq_parsed]
    exact congrArg Outcome.parsed hruns'.run_eq
  -- the runs are equally long, so they accept the same tokens
  obtain rfl : tokens = tokens' := by
    have hlength : tokens.length = tokens'.length := by
      simpa using congrArg List.length hkinds
    have hsplit := (tokens_eq_of_runs hruns).symm.trans
      (h.trans (tokens_eq_of_runs hruns'))
    exact (List.append_inj hsplit hlength).1
  rw [hresult, hresult']
  cases houtcome with
  | failed reason hafter =>
    have herror := endAt_atToken_of_runs hruns hruns' h hafter.lookahead
      reason
    exact congrArg Except.error herror.symm
  | @done name name' after after' hvalue hafter =>
    have hkind := hafter.lookahead
    rw [Outcome.parsed, Outcome.parsed, ← hkind]
    by_cases heof : after.lookahead.kind = .eof
    · rw [if_pos heof, if_pos heof]
      obtain ⟨forest, hclass, hleaves, hparsed⟩ :=
        exists_parsed?_of_runs hruns
      obtain ⟨forest', hclass', hleaves', hparsed'⟩ :=
        exists_parsed?_of_runs hruns'
      obtain rfl := hclass.eq_of_leaves_eq hclass'
        (hleaves.trans hleaves'.symm)
      exact congrArg Except.ok (Option.some.inj (hparsed'.symm.trans hparsed))
    · rw [if_neg heof, if_neg heof]
      have herror := endAt_atToken_of_runs hruns hruns' h hkind
        .trailingInput
      exact congrArg Except.error herror.symm

/-- Sources with the same tokens that end at the same place are parsed to
the same result. -/
theorem parse_congr (htokens : source.tokens = other.tokens)
    (hending : source.ending.position = other.ending.position) :
    parse source limit = parse other limit := by
  rw [parse_eq_of_tokens_eq htokens, ← hending]
  exact parse_eq_of_tokens_eq rfl

end Sources

-- ====================================================== lists of tokens

/-- The first end of input in a list is its ending. -/
theorem TokenSource.ending_ofTokens {tokens : List Token} {eof : Token}
    (h : tokens.find? (·.kind == .eof) = some eof) :
    (ofTokens tokens).ending = eof := by
  obtain ⟨heof, before, rest, rfl, hplain⟩ :=
    List.find?_eq_some_iff_append.1 h
  refine ending_list (fun token htoken => ?_) (eq_of_beq heof) .start
  simpa using hplain token htoken

/-- Lists with the same tokens before the first end of input, and that at
the same place, are parsed to the same result. -/
theorem parse_ofTokens_congr {tokens tokens' : List Token}
    (htokens : tokens.takeWhile (·.kind != .eof)
      = tokens'.takeWhile (·.kind != .eof))
    (hending : (tokens.find? (·.kind == .eof)).map Token.position
      = (tokens'.find? (·.kind == .eof)).map Token.position)
    (limit : Nat) :
    parse (.ofTokens tokens) limit = parse (.ofTokens tokens') limit := by
  have hsame : (TokenSource.ofTokens tokens).tokens
      = (TokenSource.ofTokens tokens').tokens := by
    rw [TokenSource.tokens_ofTokens, TokenSource.tokens_ofTokens, htokens]
  have hall : ∀ list : List Token, list.find? (·.kind == .eof) = none →
      (TokenSource.ofTokens list).tokens = list := by
    intro list hnone
    refine TokenSource.tokens_ofTokens_of_plain fun token htoken => ?_
    have hkind := List.find?_eq_none.1 hnone token htoken
    simpa using hkind
  cases hfirst : tokens.find? (·.kind == .eof) with
  | none =>
    -- neither list has an end of input, so the lists are the same
    rw [hfirst, Option.map_none] at hending
    have hfirst' := Option.map_eq_none_iff.1 hending.symm
    rw [hall tokens hfirst, hall tokens' hfirst'] at hsame
    rw [hsame]
  | some eof =>
    rw [hfirst, Option.map_some] at hending
    obtain ⟨eof', hfirst', hposition⟩ :=
      Option.map_eq_some_iff.1 hending.symm
    apply parse_congr hsame
    rw [TokenSource.ending_ofTokens hfirst,
      TokenSource.ending_ofTokens hfirst', hposition]

/-- An end of input after a list that has none moves an error at the end
to its place, and changes nothing else. -/
theorem parse_append_eof {tokens : List Token} {eof : Token}
    (hplain : ∀ token ∈ tokens, token.kind ≠ .eof)
    (heof : eof.kind = .eof) (limit : Nat) :
    parse (.ofTokens (tokens ++ [eof])) limit
      = (parse (.ofTokens tokens) limit).mapError
          (SyntaxError.endAt eof.position) := by
  have hnone : (TokenSource.ofTokens [eof]).tokens = [] := by
    rw [TokenSource.tokens_ofTokens, List.takeWhile_cons_of_neg (by simp [heof])]
  have hsame : (TokenSource.ofTokens tokens).tokens
      = (TokenSource.ofTokens (tokens ++ [eof])).tokens := by
    rw [TokenSource.tokens_ofTokens_of_plain hplain,
      TokenSource.tokens_ofTokens_append hplain, hnone, List.append_nil]
  have hending : (TokenSource.ofTokens (tokens ++ [eof])).ending = eof :=
    TokenSource.ending_list hplain heof .start
  rw [parse_eq_of_tokens_eq hsame, hending]

-- ========================================================= both sources

/-- A text can be scanned on demand or beforehand, with the same result.
Of a list of tokens only those before the first end of input matter and
the place of that; and a list without one can be given one, which at most
moves an error that is at the end. -/
theorem parse_interchange (limit : Nat) :
    (∀ source : String,
        parseText source limit = parse (.ofTokens (tokenize source)) limit)
      ∧ (∀ tokens tokens' : List Token,
          tokens.takeWhile (·.kind != .eof)
            = tokens'.takeWhile (·.kind != .eof) →
          (tokens.find? (·.kind == .eof)).map Token.position
            = (tokens'.find? (·.kind == .eof)).map Token.position →
          parse (.ofTokens tokens) limit = parse (.ofTokens tokens') limit)
      ∧ ∀ (tokens : List Token) (eof : Token),
          (∀ token ∈ tokens, token.kind ≠ .eof) → eof.kind = .eof →
          parse (.ofTokens (tokens ++ [eof])) limit
            = (parse (.ofTokens tokens) limit).mapError
                (SyntaxError.endAt eof.position) := by
  refine ⟨?_, ?_, ?_⟩
  · intro source
    apply parse_congr (TokenSource.tokens_tokenize source).symm
    rw [TokenSource.ending_tokenize]
  · intro tokens tokens' htokens hending
    exact parse_ofTokens_congr htokens hending limit
  · intro tokens eof hplain heof
    exact parse_append_eof hplain heof limit

/-- After `class` two lists end at the same place, and what they hold
besides does not matter; a third one ends with the word. -/
theorem parse_interchange_class :
    ∃ (tokens tokens' : List Token) (keyword eof : Token),
      tokens ≠ tokens'
        ∧ tokens.takeWhile (·.kind != .eof)
            = tokens'.takeWhile (·.kind != .eof)
        ∧ (tokens.find? (·.kind == .eof)).map Token.position
            = (tokens'.find? (·.kind == .eof)).map Token.position
        ∧ parse (.ofTokens tokens) 7 = parse (.ofTokens tokens') 7
        ∧ (∀ token ∈ [keyword], token.kind ≠ .eof) ∧ eof.kind = .eof
        ∧ parse (.ofTokens ([keyword] ++ [eof])) 7
            = (parse (.ofTokens [keyword]) 7).mapError
                (SyntaxError.endAt eof.position) := by
  let keyword : Token := ⟨.kwClass, "class", ⟨1, 1⟩⟩
  let tokens : List Token := [keyword, .eof ⟨3, 1⟩, ⟨.dot, ".", ⟨3, 1⟩⟩]
  let tokens' : List Token := [keyword, ⟨.eof, "end", ⟨3, 1⟩⟩]
  have hplain : ∀ token ∈ [keyword], token.kind ≠ .eof := by decide
  obtain ⟨-, hlists, hending⟩ := parse_interchange 7
  exact ⟨tokens, tokens', keyword, .eof ⟨9, 9⟩, by decide, rfl, rfl,
    hlists tokens tokens' rfl rfl, hplain, rfl,
    hending [keyword] (.eof ⟨9, 9⟩) hplain rfl⟩

end JackSyntax
