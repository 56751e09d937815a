/-
The forms of segments leave no choice. `Segmentation` says of every cut
that its segment has one of the forms; here a segment that has a form
before some rest is the one that is cut from the front of the two
(`cutAll_append`). So to know how a text is scanned it is enough to see
the forms in it.

What the segments read as is what the tokens of the text are, in their
order (`Scanner.map_lexeme_tokens`).
-/
import JackSyntax.Proofs.Scan.Lossless

namespace JackSyntax.Segment

-- ================================================== first characters

/-- The visible characters of ASCII are not blank. -/
theorem not_isBlank_of_visible {c : Char} (hlow : 0x20 < c.toNat)
    (hhigh : c.toNat < 0x85) : Text.isBlank c = false := by
  rw [Text.isBlank, List.any_eq_false]
  intro range hrange
  have hranges : ∀ range ∈ Text.blankRanges,
      range.2 ≤ 0x20 ∨ 0x85 ≤ range.1 := by decide
  have hrange := hranges range hrange
  simp only [Bool.and_eq_true, decide_eq_true_eq, not_and]
  omega

/-- A digit opens a number and nothing else. -/
theorem not_isBlank_of_isDigit {c : Char} (h : c.isDigit = true) :
    Text.isBlank c = false := by
  rw [Char.isDigit_iff_toNat] at h
  have hzero : '0'.toNat = 0x30 := rfl
  have hnine : '9'.toNat = 0x39 := rfl
  exact not_isBlank_of_visible (by omega) (by omega)

theorem isWordHead_cases {c : Char} (h : isWordHead c = true) :
    c = '_' ∨ 0x41 ≤ c.toNat ∧ c.toNat ≤ 0x5a
      ∨ 0x61 ≤ c.toNat ∧ c.toNat ≤ 0x7a := by
  have hupper : c.isUpper = true → 0x41 ≤ c.toNat ∧ c.toNat ≤ 0x5a :=
    fun hcase => of_decide_eq_true hcase
  have hlower : c.isLower = true → 0x61 ≤ c.toNat ∧ c.toNat ≤ 0x7a := by
    intro hcase
    obtain ⟨hlow, hhigh⟩ := Bool.and_eq_true_iff.1 hcase
    exact ⟨of_decide_eq_true hlow, of_decide_eq_true hhigh⟩
  have hcases : ((c.isUpper || c.isLower) || c == '_') = true := h
  rw [Bool.or_eq_true, Bool.or_eq_true, beq_iff_eq] at hcases
  rcases hcases with (hcase | hcase) | hcase
  · exact .inr (.inl (hupper hcase))
  · exact .inr (.inr (hlower hcase))
  · exact .inl hcase

/-- The head of a word opens nothing but a word. -/
theorem not_isBlank_of_isWordHead {c : Char} (h : isWordHead c = true) :
    Text.isBlank c = false ∧ c.isDigit = false := by
  rcases isWordHead_cases h with rfl | hletter
  · exact ⟨by decide, by decide⟩
  · refine ⟨not_isBlank_of_visible (by omega) (by omega), ?_⟩
    rw [Bool.eq_false_iff, Ne, Char.isDigit_iff_toNat]
    have hnine : '9'.toNat = 0x39 := rfl
    omega

/-- The character of a symbol opens nothing else, a slash apart. -/
theorem not_isBlank_of_ofSymbol? {c : Char} {kind : Kind}
    (h : Kind.ofSymbol? c = some kind) :
    Text.isBlank c = false ∧ c ≠ '"' ∧ c.isDigit = false
      ∧ isWordHead c = false := by
  unfold Kind.ofSymbol? at h
  split at h <;> cases h <;> decide

-- ============================================================== runs

/-- A run is what is taken from the front of a text that goes on
otherwise. -/
theorem IsRun.takeWhile_append {test : Char → Bool} {text rest : List Char}
    (h : IsRun test text rest) : (text ++ rest).takeWhile test = text := by
  rw [List.takeWhile_append_of_pos h.1]
  have hrest : rest.takeWhile test = [] := by
    cases rest with
    | nil => rfl
    | cons c cs => simp [h.2 c rfl]
  rw [hrest, List.append_nil]

theorem IsRun.dropWhile_append {test : Char → Bool} {text rest : List Char}
    (h : IsRun test text rest) : (text ++ rest).dropWhile test = rest := by
  have happ := List.takeWhile_append_dropWhile (p := test) (l := text ++ rest)
  rw [h.takeWhile_append] at happ
  exact List.append_cancel_left happ

theorem IsRun.run_append {test : Char → Bool} {c : Char}
    {text rest : List Char} (h : IsRun test text rest) :
    run test c (text ++ rest) = (c :: text, rest) := by
  rw [run, h.takeWhile_append, h.dropWhile_append]

theorem IsRun.tail {test : Char → Bool} {c : Char} {text rest : List Char}
    (h : IsRun test (c :: text) rest) : IsRun test text rest :=
  ⟨fun d hd => h.1 d (List.mem_cons_of_mem c hd), h.2⟩

-- ========================================================== comments

/-- The text of a comment is found by the mark that closes it. -/
theorem commentEnd?_append_mark {body rest : List Char}
    (h : ¬ ['*', '/'] <:+: body ++ ['*']) :
    commentEnd? (body ++ '*' :: '/' :: rest)
      = some (body ++ ['*', '/'], rest) := by
  induction body with
  | nil => rfl
  | cons c cs ih =>
    rw [List.cons_append, List.infix_cons_iff, not_or] at h
    have hstep : ∀ tail, ¬ (c = '*' ∧ cs ++ '*' :: '/' :: rest
        = '/' :: tail) := by
      rintro tail ⟨rfl, htail⟩
      apply h.1
      cases cs with
      | nil => cases (List.cons.inj htail).1
      | cons d ds =>
        obtain rfl := (List.cons.inj htail).1
        exact List.prefix_append ['*', '/'] (ds ++ ['*'])
    rw [List.cons_append, commentEnd?, ih h.2]
    · rfl
    · intro tail hc htail
      exact hstep tail ⟨hc, htail⟩

/-- A text without a closing mark is no comment. -/
theorem commentEnd?_of_not_infix {body : List Char}
    (h : ¬ ['*', '/'] <:+: body) : commentEnd? body = none := by
  cases hend : commentEnd? body with
  | none => rfl
  | some ended =>
    obtain ⟨text, rest⟩ := ended
    obtain ⟨inside, rfl, -⟩ := commentEnd?_eq_some hend
    exact absurd ⟨inside, rest, commentEnd?_append hend⟩ h

-- ============================================== what each form is cut by

theorem cutSlash_lineComment {body rest : List Char}
    (h : IsRun (· != '\n') body rest) :
    cutSlash ('/' :: (body ++ rest)) = (skipped ('/' :: '/' :: body), rest) := by
  rw [cutSlash, h.run_append]

theorem cutSlash_comment {body rest : List Char}
    (h : ¬ ['*', '/'] <:+: body ++ ['*']) :
    cutSlash ('*' :: (body ++ '*' :: '/' :: rest))
      = (skipped ('/' :: '*' :: body ++ ['*', '/']), rest) := by
  rw [cutSlash, commentEnd?_append_mark h]
  rfl

theorem cutSlash_openComment {body : List Char}
    (h : ¬ ['*', '/'] <:+: body) :
    cutSlash ('*' :: body)
      = (⟨'/' :: '*' :: body, some (.illegal, ['/', '*'])⟩, []) := by
  rw [cutSlash, commentEnd?_of_not_infix h]

theorem cutSlash_slash {rest : List Char}
    (h : ∀ d ∈ rest.head?, d ≠ '/' ∧ d ≠ '*') :
    cutSlash rest = (plain .slash ['/'], rest) := by
  cases rest with
  | nil => rfl
  | cons d ds =>
    obtain ⟨hslash, hstar⟩ := h d rfl
    rw [cutSlash]
    · rintro cs heq
      exact hslash (List.cons.inj heq).1
    · rintro cs heq
      exact hstar (List.cons.inj heq).1

/-- What has neither quote nor line end is in a string. -/
theorem isStringBody_of_not_mem {value : List Char} (hquote : '"' ∉ value)
    (hline : '\n' ∉ value) : ∀ c ∈ value, isStringBody c = true := by
  intro c hc
  rw [isStringBody, Bool.and_eq_true, bne_iff_ne, bne_iff_ne]
  constructor
  · rintro rfl
    exact hquote hc
  · rintro rfl
    exact hline hc

theorem cutQuote_string {value rest : List Char} (hquote : '"' ∉ value)
    (hline : '\n' ∉ value) :
    cutQuote (value ++ '"' :: rest)
      = (⟨'"' :: value ++ ['"'], some (.string, value)⟩, rest) := by
  have hrun : IsRun isStringBody value ('"' :: rest) := by
    refine ⟨isStringBody_of_not_mem hquote hline, ?_⟩
    rintro _ ⟨⟩
    rfl
  rw [cutQuote, hrun.takeWhile_append, hrun.dropWhile_append]
  rfl

theorem cutQuote_openString {body rest : List Char} (hquote : '"' ∉ body)
    (hrun : IsRun (· != '\n') body rest) :
    cutQuote (body ++ rest) = (⟨'"' :: body, some (.illegal, ['"'])⟩, rest) := by
  have hline : '\n' ∉ body := fun hmem => nomatch hrun.1 _ hmem
  have hbody : IsRun isStringBody body rest := by
    refine ⟨isStringBody_of_not_mem hquote hline, fun c hc => ?_⟩
    have hend : (c != '\n') = false := hrun.2 c hc
    rw [isStringBody, hend, Bool.and_false]
  rw [cutQuote, hbody.takeWhile_append, hbody.dropWhile_append]
  split
  · -- the rest would go on within the line
    cases hrun.2 '"' rfl
  · rfl

theorem cut_number {c : Char} {cs rest : List Char}
    (h : IsRun Char.isDigit (c :: cs) rest) :
    cut c (cs ++ rest) = (plain .number (c :: cs), rest) := by
  have hdigit : c.isDigit = true := h.1 c List.mem_cons_self
  have hslash : c ≠ '/' := by
    rintro rfl
    cases hdigit
  have hquote : c ≠ '"' := by
    rintro rfl
    cases hdigit
  rw [cut, not_isBlank_of_isDigit hdigit, if_neg Bool.false_ne_true,
    if_neg hslash, if_neg hquote, if_pos hdigit, h.tail.run_append]

theorem cut_word {c : Char} {cs rest : List Char}
    (hhead : isWordHead c = true) (hrun : IsRun isWordTail cs rest) :
    cut c (cs ++ rest) = (plain (wordKind (c :: cs)) (c :: cs), rest) := by
  have hslash : c ≠ '/' := by
    rintro rfl
    cases hhead
  have hquote : c ≠ '"' := by
    rintro rfl
    cases hhead
  obtain ⟨hblank, hdigit⟩ := not_isBlank_of_isWordHead hhead
  rw [cut, hblank, if_neg Bool.false_ne_true, if_neg hslash, if_neg hquote,
    hdigit, if_neg Bool.false_ne_true, if_pos hhead, cutWord,
    hrun.run_append]

/-- What opens nothing else is cut off by itself. -/
theorem cut_single {c : Char} {rest : List Char}
    (hblank : Text.isBlank c = false) (hslash : c ≠ '/') (hquote : c ≠ '"')
    (hdigit : c.isDigit = false) (hword : isWordHead c = false) :
    cut c rest = (plain ((Kind.ofSymbol? c).getD .illegal) [c], rest) := by
  rw [cut, hblank, if_neg Bool.false_ne_true, if_neg hslash, if_neg hquote,
    hdigit, if_neg Bool.false_ne_true, hword, if_neg Bool.false_ne_true]

/-- A reserved word has the kind that is spelled so. -/
theorem wordKind_of_mem {kind : Kind} {word : List Char}
    (hkind : kind ∈ Kind.keywords)
    (hspelling : kind.spelling? = some (String.ofList word)) :
    wordKind word = kind := by
  have hread := Kind.ofReserved?_spelling kind hkind
  rw [hspelling, Option.bind_some] at hread
  rw [wordKind, hread, Option.getD_some]

theorem wordKind_of_free {word : List Char}
    (h : ∀ kind ∈ Kind.keywords,
      kind.spelling? ≠ some (String.ofList word)) :
    wordKind word = .identifier := by
  have hread : Kind.ofReserved? (String.ofList word) = none := by
    rw [Kind.ofReserved?, List.find?_eq_none]
    intro kind hkind
    rw [beq_iff_eq]
    exact h kind hkind
  rw [wordKind, hread, Option.getD_none]

-- ==================================================== the forms decide

/-- A segment that has a form is what is cut from the front. -/
theorem cut_of_isCut {segment : Segment} {rest : List Char}
    (h : segment.IsCut rest) :
    ∃ c cs, segment.text ++ rest = c :: cs ∧ cut c cs = (segment, rest) := by
  cases h with
  | @blanks text _ hne hrun =>
    obtain ⟨c, cs, rfl⟩ := List.exists_cons_of_ne_nil hne
    refine ⟨c, cs ++ rest, rfl, ?_⟩
    rw [cut, if_pos (hrun.1 c List.mem_cons_self), hrun.tail.run_append]
  | @lineComment body _ hrun =>
    exact ⟨'/', '/' :: (body ++ rest), rfl, cutSlash_lineComment hrun⟩
  | @comment body _ hfirst =>
    refine ⟨'/', '*' :: (body ++ '*' :: '/' :: rest), ?_,
      cutSlash_comment hfirst⟩
    simp [skipped]
  | @openComment body hnever =>
    refine ⟨'/', '*' :: body, ?_, cutSlash_openComment hnever⟩
    rw [List.append_nil]
  | @string value _ hquote hline =>
    refine ⟨'"', value ++ '"' :: rest, ?_, cutQuote_string hquote hline⟩
    simp
  | @openString body _ hquote hrun =>
    exact ⟨'"', body ++ rest, rfl, cutQuote_openString hquote hrun⟩
  | @number text _ hne hrun =>
    obtain ⟨c, cs, rfl⟩ := List.exists_cons_of_ne_nil hne
    exact ⟨c, cs ++ rest, rfl, cut_number hrun⟩
  | @keyword c cs _ kind hhead hrun hkind hspelling =>
    refine ⟨c, cs ++ rest, rfl, ?_⟩
    rw [cut_word hhead hrun, wordKind_of_mem hkind hspelling]
  | @identifier c cs _ hhead hrun hfree =>
    refine ⟨c, cs ++ rest, rfl, ?_⟩
    rw [cut_word hhead hrun, wordKind_of_free hfree]
  | @symbol c _ kind hkind hspelling hslash =>
    have hsymbol := Kind.ofSymbol?_eq_some_iff.2 ⟨hkind, hspelling⟩
    obtain ⟨hblank, hquote, hdigit, hword⟩ := not_isBlank_of_ofSymbol? hsymbol
    refine ⟨c, rest, rfl, ?_⟩
    by_cases heq : c = '/'
    · subst heq
      cases hsymbol
      exact cutSlash_slash (hslash rfl)
    · rw [cut_single hblank heq hquote hdigit hword, hsymbol,
        Option.getD_some]
  | @stray c _ hblank hdigit hword hquote hfree =>
    have hsymbol : Kind.ofSymbol? c = none := by
      cases hread : Kind.ofSymbol? c with
      | none => rfl
      | some kind =>
        obtain ⟨hkind, hspelling⟩ := Kind.ofSymbol?_eq_some_iff.1 hread
        exact absurd hspelling (hfree kind hkind)
    have hslash : c ≠ '/' := by
      rintro rfl
      cases hsymbol
    refine ⟨c, rest, rfl, ?_⟩
    rw [cut_single hblank hslash hquote hdigit hword, hsymbol,
      Option.getD_none]

/-- The forms in a text are its segments, one after the other. -/
theorem cutAll_append {segment : Segment} {rest : List Char}
    (h : segment.IsCut rest) :
    cutAll (segment.text ++ rest) = segment :: cutAll rest := by
  obtain ⟨c, cs, htext, hcut⟩ := cut_of_isCut h
  rw [htext, cutAll, hcut]

end JackSyntax.Segment

namespace JackSyntax

-- ==================================================== tokens of a text

/-- A kind with a value: a token, wherever it stands. -/
structure Lexeme where
  kind : Kind
  value : String
  deriving DecidableEq, Repr

def Token.lexeme (token : Token) : Lexeme := ⟨token.kind, token.value⟩

namespace Segment

/-- What a segment reads as, if it is not skipped. -/
def lexeme? (segment : Segment) : Option Lexeme :=
  segment.reading?.map fun reading => ⟨reading.1, String.ofList reading.2⟩

/-- What the segments of a text read as, in their order. -/
def lexemesIn (text : List Char) : List Lexeme :=
  (cutAll text).filterMap lexeme?

theorem lexemesIn_nil : lexemesIn [] = [] := by
  rw [lexemesIn, cutAll]
  rfl

/-- A form at the front is read before the rest. -/
theorem lexemesIn_append {segment : Segment} {rest : List Char}
    (h : segment.IsCut rest) :
    lexemesIn (segment.text ++ rest)
      = segment.lexeme?.toList ++ lexemesIn rest := by
  rw [lexemesIn, cutAll_append h, List.filterMap_cons]
  cases segment.lexeme? <;> rfl

end Segment

namespace Scanner

open Segment

/-- The tokens from a place on start with those of one step. -/
theorem tokens_eq (scanner : Scanner) :
    scanner.tokens = match scanner.step? with
      | none => [.eof scanner.position]
      | some (token?, after) => token?.toList ++ after.tokens := by
  rw [tokens]
  split <;> rename_i hstep <;> rw [hstep] <;> rfl

theorem map_lexeme_tokens_of_cutAll {scanner : Scanner}
    {segments : List Segment} (h : cutAll scanner.rest = segments) :
    scanner.tokens.map Token.lexeme
      = segments.filterMap lexeme? ++ [⟨.eof, ""⟩] := by
  induction segments generalizing scanner with
  | nil =>
    have hrest : scanner.rest = [] := by
      rw [← texts_cutAll scanner.rest, h, texts_nil]
    have hstep : scanner.step? = none := by rw [step?, hrest]
    rw [tokens_eq, hstep]
    rfl
  | cons first segments ih =>
    obtain ⟨_, _, -, -, hrest⟩ := cutAll_eq_cons h
    have hafter :=
      @ih ⟨texts segments, scanner.position.advance first.text⟩ hrest
    rw [tokens_eq, step?_of_cutAll h, List.map_append, hafter]
    obtain ⟨text, _ | ⟨kind, value⟩⟩ := first <;> rfl

/-- The tokens of a text are what its segments read as, and then the end
of input. -/
theorem map_lexeme_tokens (scanner : Scanner) :
    scanner.tokens.map Token.lexeme
      = lexemesIn scanner.rest ++ [⟨.eof, ""⟩] :=
  map_lexeme_tokens_of_cutAll rfl

end Scanner

end JackSyntax
