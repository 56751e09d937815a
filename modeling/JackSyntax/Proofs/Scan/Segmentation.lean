/-
What the segments of a text look like. `Segment.IsCut` describes, form by
form and without saying how it is found, a segment that stands before
some rest of a text: what it consists of, what it reads as, and that it
goes as far as it can. Every cut is described so (`isCut_cut`).

`Segment.cutAll` is the row of segments that a whole text is cut into.
-/
import JackSyntax.Scan.Segment

namespace JackSyntax

namespace Segment

-- ============================================================== runs

/-- All characters of the text satisfy the test, and the rest does not
go on with one that does. -/
def IsRun (test : Char → Bool) (text rest : List Char) : Prop :=
  (∀ c ∈ text, test c = true) ∧ ∀ c ∈ rest.head?, test c = false

theorem isRun_span (test : Char → Bool) (cs : List Char) :
    IsRun test (cs.takeWhile test) (cs.dropWhile test) := by
  refine ⟨List.all_eq_true.1 List.all_takeWhile, fun c hc => ?_⟩
  have hhead := List.head?_dropWhile_not test cs
  rw [Option.mem_def.1 hc] at hhead
  exact hhead

-- ========================================================== the forms

/-- Of the forms that segments have, the segment has one, and it goes as
far as that form can before the rest. -/
inductive IsCut : Segment → List Char → Prop
  /-- A run of blanks. -/
  | blanks {text rest : List Char} (hne : text ≠ [])
    (hrun : IsRun Text.isBlank text rest) :
    IsCut (skipped text) rest
  /-- A comment up to the end of the line. -/
  | lineComment {body rest : List Char} (hrun : IsRun (· != '\n') body rest) :
    IsCut (skipped ('/' :: '/' :: body)) rest
  /-- A comment up to the first mark that closes it. -/
  | comment {body rest : List Char}
    (hfirst : ¬ ['*', '/'] <:+: body ++ ['*']) :
    IsCut (skipped ('/' :: '*' :: body ++ ['*', '/'])) rest
  /-- A comment that is not closed, up to the end of the text. -/
  | openComment {body : List Char} (hnever : ¬ ['*', '/'] <:+: body) :
    IsCut ⟨'/' :: '*' :: body, some (.illegal, ['/', '*'])⟩ []
  /-- A string in its quotes. -/
  | string {value rest : List Char} (hquote : '"' ∉ value)
    (hline : '\n' ∉ value) :
    IsCut ⟨'"' :: value ++ ['"'], some (.string, value)⟩ rest
  /-- A string that is not closed on its line, up to the end of the
  line. -/
  | openString {body rest : List Char} (hquote : '"' ∉ body)
    (hrun : IsRun (· != '\n') body rest) :
    IsCut ⟨'"' :: body, some (.illegal, ['"'])⟩ rest
  | number {text rest : List Char} (hne : text ≠ [])
    (hrun : IsRun Char.isDigit text rest) :
    IsCut (plain .number text) rest
  /-- A reserved word. -/
  | keyword {c : Char} {cs rest : List Char} {kind : Kind}
    (hhead : isWordHead c = true) (hrun : IsRun isWordTail cs rest)
    (hkind : kind ∈ Kind.keywords)
    (hspelling : kind.spelling? = some (String.ofList (c :: cs))) :
    IsCut (plain kind (c :: cs)) rest
  /-- Any other word. -/
  | identifier {c : Char} {cs rest : List Char}
    (hhead : isWordHead c = true) (hrun : IsRun isWordTail cs rest)
    (hfree : ∀ kind ∈ Kind.keywords,
      kind.spelling? ≠ some (String.ofList (c :: cs))) :
    IsCut (plain .identifier (c :: cs)) rest
  /-- A symbol, where a slash opens no comment. -/
  | symbol {c : Char} {rest : List Char} {kind : Kind}
    (hkind : kind ∈ Kind.symbols)
    (hspelling : kind.spelling? = some (String.ofList [c]))
    (hslash : c = '/' → ∀ d ∈ rest.head?, d ≠ '/' ∧ d ≠ '*') :
    IsCut (plain kind [c]) rest
  /-- A character that opens nothing. -/
  | stray {c : Char} {rest : List Char} (hblank : Text.isBlank c = false)
    (hdigit : c.isDigit = false) (hword : isWordHead c = false)
    (hquote : c ≠ '"')
    (hfree : ∀ kind ∈ Kind.symbols,
      kind.spelling? ≠ some (String.ofList [c])) :
    IsCut (plain .illegal [c]) rest

-- ================================================= the cuts have them

/-- A comment ends at its first closing mark. -/
theorem commentEnd?_eq_some {text ended rest : List Char}
    (h : commentEnd? text = some (ended, rest)) :
    ∃ body, ended = body ++ ['*', '/']
      ∧ ¬ ['*', '/'] <:+: body ++ ['*'] := by
  fun_induction commentEnd? text generalizing ended with
  | case1 => cases h
  | case2 rest =>
    cases h
    exact ⟨[], rfl, by decide⟩
  | case3 c cs hopen ih =>
    obtain ⟨⟨ended', rest'⟩, h', heq⟩ := Option.map_eq_some_iff.1 h
    cases heq
    obtain ⟨body, rfl, hfirst⟩ := ih h'
    refine ⟨c :: body, rfl, fun hmark => ?_⟩
    rw [List.cons_append, List.infix_cons_iff] at hmark
    rcases hmark with hbegin | hmark
    · -- a mark at the front would have been taken at once
      rw [List.cons_prefix_cons] at hbegin
      obtain ⟨rfl, more, hmore⟩ := hbegin
      have happ := commentEnd?_append h'
      rw [List.append_cons, ← hmore] at happ
      exact hopen _ rfl happ.symm
    · exact hfirst hmark

/-- A comment that does not end has no closing mark. -/
theorem commentEnd?_eq_none {text : List Char}
    (h : commentEnd? text = none) : ¬ ['*', '/'] <:+: text := by
  fun_induction commentEnd? text with
  | case1 => decide
  | case2 rest => cases h
  | case3 c cs hopen ih =>
    intro hmark
    rw [List.infix_cons_iff] at hmark
    rcases hmark with hbegin | hmark
    · rw [List.cons_prefix_cons] at hbegin
      obtain ⟨rfl, more, hmore⟩ := hbegin
      exact hopen more rfl hmore.symm
    · exact ih (Option.map_eq_none_iff.1 h) hmark

theorem isCut_cutSlash (cs : List Char) :
    IsCut (cutSlash cs).1 (cutSlash cs).2 := by
  fun_cases cutSlash cs with
  | case1 cs text rest h =>
    cases h
    exact .lineComment (isRun_span _ cs)
  | case2 cs body rest h =>
    obtain ⟨body, rfl, hfirst⟩ := commentEnd?_eq_some h
    exact .comment hfirst
  | case3 cs h => exact .openComment (commentEnd?_eq_none h)
  | case4 cs hline hcomment =>
    refine .symbol (by decide) rfl fun _ d hd => ?_
    obtain ⟨rest, rfl⟩ := List.head?_eq_some_iff.1 hd
    constructor
    · rintro rfl
      exact hline rest rfl
    · rintro rfl
      exact hcomment rest rfl

theorem isCut_cutQuote (cs : List Char) :
    IsCut (cutQuote cs).1 (cutQuote cs).2 := by
  obtain ⟨hbody, hrest⟩ := isRun_span isStringBody cs
  have hplain : ∀ c ∈ cs.takeWhile isStringBody, c ≠ '"' ∧ c ≠ '\n' := by
    intro c hc
    have htest := hbody c hc
    simp only [isStringBody, Bool.and_eq_true, bne_iff_ne] at htest
    exact htest
  simp only [cutQuote]
  split
  · exact .string (fun hmem => (hplain _ hmem).1 rfl)
      fun hmem => (hplain _ hmem).2 rfl
  · rename_i hclosed
    refine .openString (fun hmem => (hplain _ hmem).1 rfl)
      ⟨fun c hc => by simpa using (hplain c hc).2, fun c hc => ?_⟩
    have htest := hrest c hc
    obtain ⟨more, hmore⟩ := List.head?_eq_some_iff.1 hc
    have hquote : c ≠ '"' := by
      rintro rfl
      exact hclosed more hmore
    simpa [isStringBody, hquote] using htest

theorem isCut_cutWord {c : Char} (hhead : isWordHead c = true)
    (cs : List Char) : IsCut (cutWord c cs).1 (cutWord c cs).2 := by
  have hrun := isRun_span isWordTail cs
  simp only [cutWord, run, wordKind, Kind.ofReserved?]
  cases hfind : Kind.keywords.find? fun kind => kind.spelling?
      == some (String.ofList (c :: cs.takeWhile isWordTail)) with
  | none =>
    refine .identifier hhead hrun fun kind hkind hspelling => ?_
    exact List.find?_eq_none.1 hfind kind hkind (beq_iff_eq.2 hspelling)
  | some kind =>
    have hspelling := List.find?_some hfind
    exact .keyword hhead hrun (List.mem_of_find?_eq_some hfind)
      (beq_iff_eq.1 hspelling)

end Segment

/-- A character spells the symbol that it is read as. -/
theorem Kind.ofSymbol?_eq_some_iff {c : Char} {kind : Kind} :
    ofSymbol? c = some kind
      ↔ kind ∈ symbols ∧ kind.spelling? = some (String.ofList [c]) := by
  constructor
  · intro h
    unfold ofSymbol? at h
    split at h <;> cases h <;> exact ⟨by decide, rfl⟩
  · rintro ⟨hkind, hspelling⟩
    have hread := ofSymbol?_spelling kind hkind
    rw [hspelling] at hread
    simpa using hread

namespace Segment

theorem isCut_cut (c : Char) (cs : List Char) :
    IsCut (cut c cs).1 (cut c cs).2 := by
  simp only [cut]
  split
  · rename_i hblank
    obtain ⟨hrun, hrest⟩ := isRun_span Text.isBlank cs
    refine .blanks (List.cons_ne_nil _ _) ⟨?_, hrest⟩
    exact List.forall_mem_cons.2 ⟨hblank, hrun⟩
  split
  · exact isCut_cutSlash cs
  split
  · exact isCut_cutQuote cs
  split
  · rename_i hdigit
    obtain ⟨hrun, hrest⟩ := isRun_span Char.isDigit cs
    refine .number (List.cons_ne_nil _ _) ⟨?_, hrest⟩
    exact List.forall_mem_cons.2 ⟨hdigit, hrun⟩
  split
  · rename_i hword
    exact isCut_cutWord hword cs
  · rename_i hblank hslash hquote hdigit hword
    cases hsymbol : Kind.ofSymbol? c with
    | some kind =>
      obtain ⟨hkind, hspelling⟩ := Kind.ofSymbol?_eq_some_iff.1 hsymbol
      exact .symbol hkind hspelling fun heq => absurd heq hslash
    | none =>
      refine .stray (by simpa using hblank) (by simpa using hdigit)
        (by simpa using hword) hquote fun kind hkind hspelling => ?_
      have hread := Kind.ofSymbol?_eq_some_iff.2 ⟨hkind, hspelling⟩
      rw [hsymbol] at hread
      cases hread

-- ======================================================== whole texts

/-- The segments of a text, from its front to its end. -/
def cutAll : List Char → List Segment
  | [] => []
  | c :: cs => (cut c cs).1 :: cutAll (cut c cs).2
termination_by text => text.length
decreasing_by exact length_cut_lt c cs

/-- The text that segments make up. -/
def texts (segments : List Segment) : List Char := segments.flatMap text

@[simp] theorem texts_nil : texts [] = [] := rfl

@[simp] theorem texts_cons (segment : Segment) (segments : List Segment) :
    texts (segment :: segments) = segment.text ++ texts segments := rfl

/-- The segments of a text make up the text. -/
theorem texts_cutAll (text : List Char) : texts (cutAll text) = text := by
  fun_induction cutAll text with
  | case1 => rfl
  | case2 c cs ih => rw [texts_cons, ih, cut_append]

theorem text_ne_nil_of_mem_cutAll {text : List Char} {segment : Segment}
    (h : segment ∈ cutAll text) : segment.text ≠ [] := by
  fun_induction cutAll text with
  | case1 => cases h
  | case2 c cs ih =>
    rcases List.mem_cons.1 h with rfl | h
    · exact cut_text_ne_nil c cs
    · exact ih h

/-- The first segment is cut from the front, and the others are those of
what is left. -/
theorem cutAll_eq_cons {text : List Char} {segment : Segment}
    {segments : List Segment} (h : cutAll text = segment :: segments) :
    ∃ c cs, text = c :: cs ∧ cut c cs = (segment, texts segments)
      ∧ cutAll (texts segments) = segments := by
  cases text with
  | nil =>
    rw [cutAll] at h
    cases h
  | cons c cs =>
    rw [cutAll] at h
    cases h
    rw [texts_cutAll]
    exact ⟨c, cs, rfl, rfl, rfl⟩

/-- The last segments of a text are those of the text they make up. -/
theorem cutAll_texts {text : List Char} {before after : List Segment}
    (h : cutAll text = before ++ after) : cutAll (texts after) = after := by
  induction before generalizing text with
  | nil =>
    have hafter : after = cutAll text := h.symm
    rw [hafter, texts_cutAll]
  | cons first before ih =>
    obtain ⟨c, cs, -, -, hrest⟩ := cutAll_eq_cons h
    exact ih hrest

/-- Each segment is cut before the text of those after it. -/
theorem isCut_of_cutAll {text : List Char} {before after : List Segment}
    {segment : Segment} (h : cutAll text = before ++ segment :: after) :
    segment.IsCut (texts after) := by
  obtain ⟨c, cs, -, hcut, -⟩ := cutAll_eq_cons (cutAll_texts h)
  have hisCut := isCut_cut c cs
  rwa [hcut] at hisCut

end Segment

end JackSyntax
