/-
Where a source ends. A text ends after its last character. A list of
tokens without an end of input ends where the text of its last token
would if its value were all of it (`TokenSource.ending_list_of_last`). So
for the tokens of a text, handed out from a list, all depends on the last
of them (`take_dropLast_tokenize_iff`): a string has two quotes more than
its value, and a mark that opens a string or a comment which is not closed
stands for all that follows it. Every other token is its value.

That the list ends on the right line already says that there is no newline
in the text of the last token, and then it is enough to compare lengths
(`Position.advance_eq_iff`).
-/
import JackSyntax.Proofs.Parse.Sequence
import JackSyntax.Proofs.Scan.Seam

namespace JackSyntax

-- =========================================================== one line

/-- A text leads so many columns on, and to no other line, if it has so
many characters and no newline. -/
theorem Position.advance_eq_iff {position : Position} {text : List Char}
    {count : Nat} :
    position.advance text = ⟨position.line, position.column + count⟩
      ↔ '\n' ∉ text ∧ text.length = count := by
  constructor
  · intro h
    have hlines := congrArg line h
    rw [advance_line] at hlines
    have hfree : '\n' ∉ text := List.count_eq_zero.1 (Nat.add_eq_left.1 hlines)
    rw [advance_of_not_mem _ _ hfree] at h
    exact ⟨hfree, Nat.add_left_cancel (congrArg column h)⟩
  · rintro ⟨hfree, rfl⟩
    exact advance_of_not_mem position text hfree

-- ======================================================= text and value

namespace Segment

/-- The marks that open a string or a comment. -/
def openingMarks : List (List Char) := [['"'], ['/', '*']]

variable {segment : Segment} {rest value : List Char} {kind : Kind}

/-- A string is its value in quotes. Any other token starts with its
value, and goes on after it only if that is an opening mark. -/
theorem IsCut.text_cases (h : segment.IsCut rest)
    (hreading : segment.reading? = some (kind, value)) :
    kind = .string ∧ segment.text = '"' :: value ++ ['"']
      ∨ kind ≠ .string ∧ value <+: segment.text
        ∧ (segment.text = value ∨ value ∈ openingMarks) := by
  have hkeyword : ∀ kind ∈ Kind.keywords, kind ≠ .string := by decide
  have hsymbol : ∀ kind ∈ Kind.symbols, kind ≠ .string := by decide
  cases h with
  | blanks => cases hreading
  | lineComment => cases hreading
  | comment => cases hreading
  | @openComment body =>
    cases hreading
    exact .inr ⟨by decide, List.prefix_append ['/', '*'] body, .inr (by decide)⟩
  | string =>
    cases hreading
    exact .inl ⟨rfl, rfl⟩
  | @openString body =>
    cases hreading
    exact .inr ⟨by decide, List.prefix_append ['"'] body, .inr (by decide)⟩
  | number | identifier | stray =>
    cases hreading
    exact .inr ⟨by decide, List.prefix_rfl, .inl rfl⟩
  | keyword _ _ hkind =>
    cases hreading
    exact .inr ⟨hkeyword _ hkind, List.prefix_rfl, .inl rfl⟩
  | symbol hkind =>
    cases hreading
    exact .inr ⟨hsymbol _ hkind, List.prefix_rfl, .inl rfl⟩

/-- The quotes of a string are two characters. -/
theorem length_quoted (value : List Char) :
    ('"' :: value ++ ['"']).length = value.length + 2 := by
  rw [List.length_append, List.length_cons, List.length_singleton]

/-- A value that is as long as the text is the text. -/
theorem IsCut.text_eq_of_length (h : segment.IsCut rest)
    (hreading : segment.reading? = some (kind, value))
    (hlength : segment.text.length = value.length) :
    segment.text = value := by
  rcases h.text_cases hreading with ⟨-, htext⟩ | ⟨-, hfront, -⟩
  · rw [htext, length_quoted] at hlength
    omega
  · exact (hfront.eq_of_length hlength.symm).symm

theorem IsCut.text_eq_iff (h : segment.IsCut rest)
    (hreading : segment.reading? = some (kind, value)) :
    segment.text = value
      ↔ kind ≠ .string ∧ (value ∈ openingMarks → segment.text = value) := by
  rcases h.text_cases hreading with
    ⟨hstring, htext⟩ | ⟨hstring, -, hwhole | hmark⟩
  · have hne : segment.text ≠ value := by
      intro heq
      have hlength := congrArg List.length (htext.symm.trans heq)
      rw [length_quoted] at hlength
      omega
    exact iff_of_false hne fun hsound => hsound.1 hstring
  · exact iff_of_true hwhole ⟨hstring, fun _ => hwhole⟩
  · exact ⟨fun heq => ⟨hstring, fun _ => heq⟩, fun hsound => hsound.2 hmark⟩

/-- Stepping over the value leads as far as stepping over the text only if
they are the same. -/
theorem IsCut.advance_eq_iff (h : segment.IsCut rest)
    (hreading : segment.reading? = some (kind, value))
    (position : Position) :
    position.advance segment.text
        = ⟨position.line, position.column + value.length⟩
      ↔ segment.text = value := by
  rw [Position.advance_eq_iff]
  constructor
  · rintro ⟨-, hlength⟩
    exact h.text_eq_of_length hreading hlength
  · intro heq
    rw [heq]
    exact ⟨h.newline_not_mem hreading, rfl⟩

end Segment

-- ======================================================= the last token

open Segment

/-- The tokens of a text end with those of its last segments. -/
theorem Scanner.exists_tokens_eq_append {scanner : Scanner}
    {before after : List Segment}
    (h : cutAll scanner.rest = before ++ after) :
    ∃ earlier, scanner.tokens = earlier
      ++ (⟨texts after, scanner.position.advance (texts before)⟩ :
        Scanner).tokens := by
  induction before generalizing scanner with
  | nil =>
    have hrest : texts after = scanner.rest := by
      rw [← texts_cutAll scanner.rest, h, List.nil_append]
    exact ⟨[], by rw [hrest]; rfl⟩
  | cons first before ih =>
    rw [List.cons_append] at h
    obtain ⟨_, _, -, -, hrest⟩ := cutAll_eq_cons h
    obtain ⟨earlier, hlater⟩ :=
      @ih ⟨texts (before ++ after), scanner.position.advance first.text⟩ hrest
    refine ⟨(first.token? scanner.position).toList ++ earlier, ?_⟩
    rw [tokens_of_cutAll h, hlater, texts_cons, Position.advance_append,
      List.append_assoc]

variable {source : String} {before : List Segment} {last : Segment}
  {kind : Kind} {value : List Char}

/-- If nothing is skipped at the end of a text, its last token is what its
last segment reads as. -/
theorem TokenSource.exists_tokens_ofText
    (h : cutAll source.toList = before ++ [last])
    (hreading : last.reading? = some (kind, value)) :
    ∃ earlier, (ofText source).tokens = earlier
      ++ [⟨kind, String.ofList value, .endOf (texts before)⟩] := by
  obtain ⟨earlier, htokens⟩ :=
    @Scanner.exists_tokens_eq_append (.ofText source) before [last] h
  have hlast : cutAll (texts [last]) = [last] := cutAll_texts h
  have hend := @Scanner.tokens_of_cutAll
    ⟨texts [last], Position.start.advance (texts before)⟩ _ _ hlast
  rw [texts_nil, Scanner.tokens_nil, token?, hreading] at hend
  have hsplit := (tokenize_eq source).symm.trans (htokens.trans
    (congrArg (earlier ++ ·) hend))
  rw [← List.append_assoc, Position.advance_start] at hsplit
  exact ⟨earlier, (List.append_inj' hsplit rfl).1⟩

/-- The list of the tokens ends after the value of the last one. -/
theorem TokenSource.ending_dropLast_tokenize
    (h : cutAll source.toList = before ++ [last])
    (hreading : last.reading? = some (kind, value)) :
    (ofTokens (tokenize source).dropLast).ending
      = .eof ⟨(Position.endOf (texts before)).line,
          (Position.endOf (texts before)).column + value.length⟩ := by
  obtain ⟨earlier, htokens⟩ := exists_tokens_ofText h hreading
  have hplain : ∀ token ∈ (ofText source).tokens, token.kind ≠ .eof :=
    fun _ => ne_eof_of_mem_tokens
  rw [htokens] at hplain
  have hending := ending_list_of_last hplain .start
  rw [String.length_ofList, ← htokens] at hending
  rw [tokenize_eq, List.dropLast_concat]
  exact hending

/-- The text ends after the last segment. -/
theorem TokenSource.ending_ofText
    (h : cutAll source.toList = before ++ [last]) :
    (ofText source).ending
      = .eof ((Position.endOf (texts before)).advance last.text) := by
  have hwhole : texts before ++ last.text = source.toList := by
    rw [← texts_cutAll source.toList, h]
    simp [texts]
  rw [← Position.advance_start, ← Position.advance_append, hwhole]
  exact ending_text (.ofText source)

/-- A list of all tokens of a text, without the end of input, hands out
what the text does and ends after the value of the last token. Where
nothing is skipped at the end of the text, that is where the text ends
unless the last token is a string or leaves open what it opens. -/
theorem take_dropLast_tokenize_iff
    (h : cutAll source.toList = before ++ [last])
    (hreading : last.reading? = some (kind, value)) :
    let queue := TokenSource.ofTokens (tokenize source).dropLast
    let place := Position.endOf (texts before)
    queue.tokens = (TokenSource.ofText source).tokens
      ∧ queue.ending = .eof ⟨place.line, place.column + value.length⟩
      ∧ ((∀ count, queue.take count = (TokenSource.ofText source).take count)
        ↔ kind ≠ .string ∧ (value ∈ openingMarks → last.text = value)) := by
  intro queue place
  have htokens : queue.tokens = (TokenSource.ofText source).tokens :=
    TokenSource.tokens_dropLast_tokenize source
  have hqueue : queue.ending
      = .eof ⟨place.line, place.column + value.length⟩ :=
    TokenSource.ending_dropLast_tokenize h hreading
  have hcut : last.IsCut (texts []) := isCut_of_cutAll h
  refine ⟨htokens, hqueue, ?_⟩
  rw [TokenSource.take_eq_iff htokens, hqueue, TokenSource.ending_ofText h,
    ← hcut.text_eq_iff hreading, ← hcut.advance_eq_iff hreading place]
  constructor
  · intro heof
    exact (congrArg Token.position heof).symm
  · intro hplace
    rw [hplace]

/-- A character that opens nothing, though it takes more than a byte, is
where both end. -/
theorem take_dropLast_tokenize_stray :
    ∃ source before last kind value, source = "let /*\n*/ \"s\" é"
      ∧ cutAll source.toList = before ++ [last]
      ∧ last.reading? = some (kind, value)
      ∧ (kind ≠ .string ∧ (value ∈ openingMarks → last.text = value))
      ∧ (∀ count, (TokenSource.ofTokens (tokenize source).dropLast).take count
          = (TokenSource.ofText source).take count)
      ∧ (TokenSource.ofTokens (tokenize source).dropLast).take 4
          = [⟨.kwLet, "let", ⟨1, 1⟩⟩, ⟨.string, "s", ⟨2, 4⟩⟩,
            ⟨.illegal, "é", ⟨2, 8⟩⟩, .eof ⟨2, 9⟩] := by
  have hcut : cutAll "let /*\n*/ \"s\" é".toList
      = [plain .kwLet "let".toList, skipped [' '],
          skipped "/*\n*/".toList, skipped [' '],
          ⟨"\"s\"".toList, some (.string, ['s'])⟩, skipped [' ']]
        ++ [plain .illegal ['é']] := by decide +kernel
  have hsound : Kind.illegal ≠ .string
      ∧ (['é'] ∈ openingMarks → (plain .illegal ['é']).text = ['é']) := by
    decide
  exact ⟨_, _, _, _, _, rfl, hcut, rfl, hsound,
    (take_dropLast_tokenize_iff hcut rfl).2.2.2 hsound, by decide +kernel⟩

/-- A list of the tokens of a text that has a string at its end is at an
end before the text is: two quotes are missing. -/
theorem not_forall_take_dropLast_tokenize :
    ¬ ∀ {source : String} {before : List Segment} {last : Segment}
        {kind : Kind} {value : List Char},
      cutAll source.toList = before ++ [last] →
        last.reading? = some (kind, value) →
        ∀ count, (TokenSource.ofTokens (tokenize source).dropLast).take count
          = (TokenSource.ofText source).take count := by
  intro hsame
  have hcut : cutAll "\"a\"".toList
      = [] ++ [⟨"\"a\"".toList, some (.string, ['a'])⟩] := by decide +kernel
  have htake := hsame hcut rfl 2
  have hlist : (TokenSource.ofTokens (tokenize "\"a\"").dropLast).take 2
      = [⟨.string, "a", ⟨1, 1⟩⟩, .eof ⟨1, 2⟩] := by decide +kernel
  have htext : (TokenSource.ofText "\"a\"").take 2
      = [⟨.string, "a", ⟨1, 1⟩⟩, .eof ⟨1, 4⟩] := by decide +kernel
  rw [hlist, htext] at htake
  exact absurd htake (by decide)

end JackSyntax
