/-
The tokens of a text, one by one. A token that is read is never an end of
input, a keyword or a symbol is read with its own spelling
(`Scanner.isSpelled_next`), and no value goes on over the end of a line
(`Scanner.isOneLine_next`). Scanning a text at once gives the tokens that
a source over the text hands out, and one end of input after them
(`tokenize_eq`).

Each call for the next token is answered by one segment of the text,
or by its end (`Scanner.next_afterCalls_cases`).
-/
import JackSyntax.Source
import JackSyntax.Proofs.Scan.Lossless

namespace JackSyntax

-- ======================================================== one segment

/-- The value is the spelling of the kind, where that has one. -/
def Token.IsSpelled (token : Token) : Prop :=
  ∀ spelling, token.kind.spelling? = some spelling → token.value = spelling

/-- The value has no newline. -/
def Token.IsOneLine (token : Token) : Prop := '\n' ∉ token.value.toList

namespace Segment

/-- What a segment reads as is no end of input, and is spelled as its kind
is. -/
theorem IsCut.reading {segment : Segment} {rest value : List Char}
    {kind : Kind} (h : segment.IsCut rest)
    (hreading : segment.reading? = some (kind, value)) :
    kind ≠ .eof ∧ ∀ spelling, kind.spelling? = some spelling →
      String.ofList value = spelling := by
  have hkeyword : ∀ kind ∈ Kind.keywords, kind ≠ .eof := by decide
  have hsymbol : ∀ kind ∈ Kind.symbols, kind ≠ .eof := by decide
  cases h with
  | blanks => cases hreading
  | lineComment => cases hreading
  | comment => cases hreading
  | openComment | string | openString | number | identifier | stray =>
    cases hreading
    exact ⟨by decide, fun _ hspelling => by cases hspelling⟩
  | keyword _ _ hkind hword =>
    cases hreading
    refine ⟨hkeyword _ hkind, fun _ hspelling => ?_⟩
    exact Option.some.inj (hword.symm.trans hspelling)
  | symbol hkind hchar =>
    cases hreading
    refine ⟨hsymbol _ hkind, fun _ hspelling => ?_⟩
    exact Option.some.inj (hchar.symm.trans hspelling)

/-- What a segment reads as has no newline, though a segment that is
skipped may have some. -/
theorem IsCut.newline_not_mem {segment : Segment} {rest value : List Char}
    {kind : Kind} (h : segment.IsCut rest)
    (hreading : segment.reading? = some (kind, value)) : '\n' ∉ value := by
  have hruns : ∀ {test : Char → Bool} {text after : List Char},
      IsRun test text after → test '\n' = false → '\n' ∉ text := by
    intro test text after hrun htest hmem
    exact absurd (htest.symm.trans (hrun.1 _ hmem)) Bool.false_ne_true
  have hword : ∀ {c : Char} {cs after : List Char}, isWordHead c = true →
      IsRun isWordTail cs after → '\n' ∉ c :: cs := by
    intro c cs after hhead hrun hmem
    rcases List.mem_cons.1 hmem with heq | htail
    · rw [← heq] at hhead
      cases hhead
    · exact hruns hrun rfl htail
  cases h with
  | blanks => cases hreading
  | lineComment => cases hreading
  | comment => cases hreading
  | openComment | openString =>
    cases hreading
    decide
  | string _ hline =>
    cases hreading
    exact hline
  | number _ hrun =>
    cases hreading
    exact hruns hrun rfl
  | keyword hhead hrun =>
    cases hreading
    exact hword hhead hrun
  | identifier hhead hrun =>
    cases hreading
    exact hword hhead hrun
  | @symbol c _ kind hkind hspelling =>
    cases hreading
    have hnone : ∀ kind ∈ Kind.symbols,
        kind.spelling? ≠ some (String.ofList ['\n']) := by decide
    intro hmem
    rw [List.mem_singleton.1 hmem] at hnone
    exact hnone kind hkind hspelling
  | stray hblank =>
    cases hreading
    intro hmem
    rw [← List.mem_singleton.1 hmem] at hblank
    cases hblank

end Segment

-- ========================================================== the tokens

namespace Scanner

/-- A step that reads a token reads what the segment in front says. -/
theorem exists_isCut_of_step? {scanner after : Scanner} {token : Token}
    (h : scanner.step? = some (some token, after)) :
    ∃ segment rest value, Segment.IsCut segment rest
      ∧ segment.reading? = some (token.kind, value)
      ∧ token.value = String.ofList value := by
  unfold step? at h
  split at h
  · cases h
  · rename_i c cs hrest
    simp only [Option.some.injEq, Prod.mk.injEq] at h
    obtain ⟨⟨kind, value⟩, hreading, rfl⟩ := Option.map_eq_some_iff.1 h.1
    exact ⟨_, _, value, Segment.isCut_cut c cs, hreading, rfl⟩

theorem step?_reads {scanner after : Scanner} {token : Token}
    (h : scanner.step? = some (some token, after)) :
    token.kind ≠ .eof ∧ token.IsSpelled := by
  obtain ⟨segment, rest, value, hcut, hreading, hvalue⟩ :=
    exists_isCut_of_step? h
  rw [Token.IsSpelled, hvalue]
  exact hcut.reading hreading

theorem isOneLine_of_step? {scanner after : Scanner} {token : Token}
    (h : scanner.step? = some (some token, after)) : token.IsOneLine := by
  obtain ⟨segment, rest, value, hcut, hreading, hvalue⟩ :=
    exists_isCut_of_step? h
  rw [Token.IsOneLine, hvalue, String.toList_ofList]
  exact hcut.newline_not_mem hreading

/-- What holds of an end of input and of all tokens that steps read, holds
of the next token. -/
theorem forall_next {good : Token → Prop}
    (heof : ∀ position, good (.eof position))
    (hstep : ∀ {scanner after : Scanner} {token : Token},
      scanner.step? = some (some token, after) → good token)
    (scanner : Scanner) : good scanner.next.1 := by
  fun_induction next scanner with
  | case1 scanner _ => exact heof scanner.position
  | case2 scanner token after hread => exact hstep hread
  | case3 scanner after hskipped ih => exact ih

/-- Each token that is read is spelled as its kind is. -/
theorem isSpelled_next (scanner : Scanner) : scanner.next.1.IsSpelled := by
  apply forall_next
  · intro position spelling hspelling
    cases hspelling
  · intro scanner after token hread
    exact (step?_reads hread).2

/-- No token that is read has a newline in its value. -/
theorem isOneLine_next (scanner : Scanner) : scanner.next.1.IsOneLine := by
  apply forall_next
  · intro position
    exact List.not_mem_nil
  · intro scanner after token hread
    exact isOneLine_of_step? hread

/-- A step does not move the end of the text. -/
theorem advance_of_step? {scanner after : Scanner} {token? : Option Token}
    (h : scanner.step? = some (token?, after)) :
    scanner.position.advance scanner.rest
      = after.position.advance after.rest := by
  unfold step? at h
  split at h
  · cases h
  · rename_i c cs hrest
    simp only [Option.some.injEq, Prod.mk.injEq] at h
    obtain ⟨-, rfl⟩ := h
    rw [hrest, ← Segment.cut_append c cs, Position.advance_append]

/-- There are steps up to the end of the text. -/
theorem rest_of_step?_eq_none {scanner : Scanner}
    (h : scanner.step? = none) : scanner.rest = [] := by
  unfold step? at h
  split at h
  · assumption
  · cases h

/-- The tokens of a text are those that a source over it hands out, and
then an end of input where the text ends. -/
theorem tokens_eq_append (scanner : Scanner) :
    scanner.tokens = (TokenSource.text scanner).tokens
      ++ [.eof (scanner.position.advance scanner.rest)] := by
  fun_induction tokens scanner with
  | case1 scanner hstep =>
    have hnext : scanner.next = (.eof scanner.position, scanner) := by
      rw [next_eq, hstep]
    have heof : (TokenSource.text scanner).next.1.kind = .eof := by
      rw [TokenSource.next, hnext]
      rfl
    rw [TokenSource.tokens_of_eof heof, rest_of_step?_eq_none hstep]
    rfl
  | case2 scanner token after hstep ih =>
    have hnext : scanner.next = (token, after) := by rw [next_eq, hstep]
    have hkind : (TokenSource.text scanner).next.1.kind ≠ .eof := by
      rw [TokenSource.next, hnext]
      exact (step?_reads hstep).1
    rw [TokenSource.tokens_of_ne_eof hkind, ih, advance_of_step? hstep,
      TokenSource.next, hnext]
    rfl
  | case3 scanner after hstep ih =>
    have hnext : scanner.next = after.next := by rw [next_eq, hstep]
    have htokens : (TokenSource.text scanner).tokens
        = (TokenSource.text after).tokens := by
      rw [TokenSource.tokens.eq_def (.text scanner),
        TokenSource.tokens.eq_def (.text after)]
      simp only [TokenSource.next, hnext]
      rfl
    rw [htokens, ih, advance_of_step? hstep]

end Scanner

/-- Scanning a text gives what its source hands out before the end of
input, and the end of input once. -/
theorem tokenize_eq (source : String) :
    tokenize source = (TokenSource.ofText source).tokens
      ++ [.eof (.endOf source.toList)] := by
  rw [← Position.advance_start]
  exact Scanner.tokens_eq_append (.ofText source)

/-- What holds of the next token of every scanner holds of all tokens of a
text. -/
theorem TokenSource.forall_mem_tokens_text {good : Token → Prop}
    (hnext : ∀ scanner : Scanner, good scanner.next.1) (scanner : Scanner) :
    ∀ token ∈ (TokenSource.text scanner).tokens, good token := by
  intro token htoken
  generalize hsource : TokenSource.text scanner = source at htoken
  induction hcount : source.remaining using Nat.strongRecOn
    generalizing source scanner with
  | ind count ih =>
    subst hsource hcount
    by_cases heof : (TokenSource.text scanner).next.1.kind = .eof
    · rw [tokens_of_eof heof] at htoken
      cases htoken
    · rw [tokens_of_ne_eof heof] at htoken
      rcases List.mem_cons.1 htoken with rfl | hlater
      · exact hnext scanner
      · exact ih _ (remaining_next_lt _ heof) scanner.next.2 _ rfl hlater rfl

/-- All tokens of a text are spelled as their kinds are. -/
theorem TokenSource.isSpelled_text (scanner : Scanner) :
    ∀ token ∈ (TokenSource.text scanner).tokens, token.IsSpelled :=
  forall_mem_tokens_text Scanner.isSpelled_next scanner

/-- No token of a text has a newline in its value. -/
theorem TokenSource.isOneLine_text (scanner : Scanner) :
    ∀ token ∈ (TokenSource.text scanner).tokens, token.IsOneLine :=
  forall_mem_tokens_text Scanner.isOneLine_next scanner

-- =========================================================== the calls

namespace Segment

/-- Of the segments that are read, each is found in its place. -/
theorem exists_eq_append_of_lt {segments : List Segment} {index : Nat}
    (h : index < (Scanner.readings segments).length) :
    ∃ before segment after reading,
      segments = before ++ segment :: after
        ∧ segment.reading? = some reading
        ∧ (Scanner.readings before).length = index := by
  induction segments generalizing index with
  | nil => cases h
  | cons first segments ih =>
    cases hfirst : first.reading? with
    | none =>
      rw [Scanner.readings, List.filterMap_cons_none hfirst] at h
      obtain ⟨before, segment, after, reading, rfl, hreading, hlength⟩ := ih h
      refine ⟨first :: before, segment, after, reading, rfl, hreading, ?_⟩
      rw [Scanner.readings, List.filterMap_cons_none hfirst]
      exact hlength
    | some reading =>
      cases index with
      | zero => exact ⟨[], first, segments, reading, rfl, hfirst, rfl⟩
      | succ index =>
        rw [Scanner.readings, List.filterMap_cons_some hfirst] at h
        obtain ⟨before, segment, after, reading', rfl, hreading, hlength⟩ :=
          ih (Nat.lt_of_succ_lt_succ h)
        refine ⟨first :: before, segment, after, reading', rfl, hreading, ?_⟩
        rw [Scanner.readings, List.filterMap_cons_some hfirst,
          List.length_cons]
        exact congrArg (· + 1) hlength

end Segment

/-- Each call is answered by the segment that is read for it, with the
place where that starts, or by the end of the text. -/
theorem Scanner.next_afterCalls_cases (source : String) (calls : Nat) :
    (∃ before segment after kind value,
      Segment.cutAll source.toList = before ++ segment :: after
        ∧ segment.reading? = some (kind, value)
        ∧ (afterCalls calls (.ofText source)).next.1
            = ⟨kind, String.ofList value,
                .endOf (Segment.texts before)⟩)
      ∨ (afterCalls calls (.ofText source)).next.1
          = .eof (.endOf source.toList) := by
  by_cases hlt :
      calls < (readings (Segment.cutAll source.toList)).length
  · obtain ⟨before, segment, after, ⟨kind, value⟩, hsplit, hreading, rfl⟩ :=
      Segment.exists_eq_append_of_lt hlt
    refine .inl ⟨before, segment, after, kind, value, hsplit, hreading, ?_⟩
    rw [@next_afterCalls (.ofText source) _ _ _ _ _ hsplit hreading,
      ← Position.advance_start]
    rfl
  · right
    rw [@next_afterCalls_of_length_le (.ofText source) _ _ rfl
      (Nat.not_lt.1 hlt), ← Position.advance_start]
    rfl

end JackSyntax
