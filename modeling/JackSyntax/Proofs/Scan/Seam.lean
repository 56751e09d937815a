/-
Scanning line by line. Two texts with a newline between them have the
tokens of the one and then, so many lines further down, those of the
other (`tokenize_append_newline`), unless the first text ends in a comment
that is still open.

The newline is a seam that no token crosses. A segment of the first text
that ends before the seam ends there in the joint text as well, since
there is no form that would go on with a newline, but for a run of blanks
(`Segment.IsCut.append_newline`). Such a run does go on into the second
text, where it takes no more than what is skipped in any case
(`Scanner.tokens_append_of_isBlank`).
-/
import JackSyntax.Proofs.Scan.Determinacy
import JackSyntax.Proofs.Scan.Tokens

namespace JackSyntax

-- ========================================================= further down

/-- The place so many lines further down, in the same column. -/
def Position.below (position : Position) (lines : Nat) : Position :=
  ⟨position.line + lines, position.column⟩

/-- The token so many lines further down. -/
def Token.below (lines : Nat) (token : Token) : Token :=
  { token with position := token.position.below lines }

theorem Position.advance_below (position : Position) (lines : Nat)
    (text : List Char) :
    (position.below lines).advance text
      = (position.advance text).below lines := by
  induction text generalizing position with
  | nil => rfl
  | cons c cs ih =>
    have hstep : (position.below lines).step c
        = (position.step c).below lines := by
      by_cases hline : c = '\n'
      · simp only [step, hline, if_true, below, mk.injEq, and_true]
        omega
      · simp only [step, hline, if_false, below]
    show ((position.below lines).step c).advance cs = _
    rw [hstep]
    exact ih (position.step c)

/-- After a text and a newline comes the first column, below the lines of
the text. -/
theorem Position.advance_start_newline (text : List Char) :
    (start.advance text).step '\n'
      = start.below (1 + text.count '\n') := by
  rw [advance_start, step, if_pos rfl, endOf, below]
  simp only [start, mk.injEq, and_true]
  omega

-- ============================================================= the seam

namespace Segment

/-- A run that ends the text ends before a newline, unless the newline
belongs to it. -/
theorem IsRun.append_newline {test : Char → Bool} {text rest : List Char}
    (h : IsRun test text rest) (hline : test '\n' = false)
    (more : List Char) : IsRun test text (rest ++ '\n' :: more) := by
  refine ⟨h.1, fun c hc => ?_⟩
  cases rest with
  | nil =>
    cases hc
    exact hline
  | cons d rest => exact h.2 c hc

/-- A segment has its form also before a newline and more text, if it is
no run of blanks at the end and no comment that is still open. -/
theorem IsCut.append_newline {segment : Segment} {rest : List Char}
    (h : segment.IsCut rest)
    (hopen : segment.reading? ≠ some (.illegal, ['/', '*']))
    (more : List Char) :
    segment.IsCut (rest ++ '\n' :: more)
      ∨ rest = [] ∧ segment.reading? = none
        ∧ ∀ c ∈ segment.text, Text.isBlank c = true := by
  cases h with
  | @blanks text _ hne hrun =>
    cases rest with
    | nil => exact .inr ⟨rfl, rfl, hrun.1⟩
    | cons c cs => exact .inl (.blanks hne ⟨hrun.1, hrun.2⟩)
  | lineComment hrun =>
    exact .inl (.lineComment (hrun.append_newline rfl more))
  | comment hfirst => exact .inl (.comment hfirst)
  | openComment => exact absurd rfl hopen
  | string hquote hline => exact .inl (.string hquote hline)
  | openString hquote hrun =>
    exact .inl (.openString hquote (hrun.append_newline rfl more))
  | number hne hrun =>
    exact .inl (.number hne (hrun.append_newline rfl more))
  | keyword hhead hrun hkind hspelling =>
    exact .inl (.keyword hhead (hrun.append_newline rfl more) hkind
      hspelling)
  | identifier hhead hrun hfree =>
    exact .inl (.identifier hhead (hrun.append_newline rfl more) hfree)
  | symbol hkind hspelling hslash =>
    refine .inl (.symbol hkind hspelling fun heq d hd => ?_)
    cases rest with
    | nil =>
      cases hd
      decide
    | cons e rest => exact hslash heq d hd
  | stray hblank hdigit hword hquote hfree =>
    exact .inl (.stray hblank hdigit hword hquote hfree)

/-- The token that a segment reads as at a place, if it is not skipped. -/
def token? (segment : Segment) (position : Position) : Option Token :=
  segment.reading?.map fun (kind, value) =>
    ⟨kind, String.ofList value, position⟩

end Segment

-- ==================================================== tokens of a text

namespace Scanner

open Segment

variable {rest : List Char} {position : Position}

/-- The tokens of a text that is cut into segments start with what the
first segment reads as. -/
theorem tokens_of_cutAll {scanner : Scanner} {segment : Segment}
    {segments : List Segment}
    (h : cutAll scanner.rest = segment :: segments) :
    scanner.tokens = (segment.token? scanner.position).toList
      ++ (⟨texts segments, scanner.position.advance segment.text⟩ :
        Scanner).tokens := by
  rw [tokens_eq, step?_of_cutAll h]
  rfl

/-- A form at the front is read before the rest. -/
theorem tokens_append_of_isCut {segment : Segment} (h : segment.IsCut rest)
    (position : Position) :
    (⟨segment.text ++ rest, position⟩ : Scanner).tokens
      = (segment.token? position).toList
        ++ (⟨rest, position.advance segment.text⟩ : Scanner).tokens := by
  have hcut : cutAll (⟨segment.text ++ rest, position⟩ : Scanner).rest
      = segment :: cutAll rest := cutAll_append h
  rw [tokens_of_cutAll hcut, texts_cutAll]

/-- There is nothing but the end of input in an empty text. -/
theorem tokens_nil (position : Position) :
    (⟨[], position⟩ : Scanner).tokens = [.eof position] := by
  rw [tokens_eq]
  rfl

/-- Blanks at the front of a text are skipped, even if more blanks follow
them. -/
theorem tokens_append_of_isBlank {text : List Char}
    (h : ∀ c ∈ text, Text.isBlank c = true) (rest : List Char)
    (position : Position) :
    (⟨text ++ rest, position⟩ : Scanner).tokens
      = (⟨rest, position.advance text⟩ : Scanner).tokens := by
  obtain ⟨hblanks, hafter⟩ := isRun_span Text.isBlank rest
  have happ := List.takeWhile_append_dropWhile (p := Text.isBlank) (l := rest)
  generalize rest.takeWhile Text.isBlank = more at hblanks happ
  generalize rest.dropWhile Text.isBlank = tail at hafter happ
  have hskip : ∀ (run : List Char) (position : Position),
      (∀ c ∈ run, Text.isBlank c = true) →
      (⟨run ++ tail, position⟩ : Scanner).tokens
        = (⟨tail, position.advance run⟩ : Scanner).tokens := by
    intro run position hrun
    cases run with
    | nil => rfl
    | cons c cs =>
      exact tokens_append_of_isCut
        (.blanks (List.cons_ne_nil c cs) ⟨hrun, hafter⟩) position
  rw [← happ, ← List.append_assoc, hskip (text ++ more) position
      (List.forall_mem_append.2 ⟨h, hblanks⟩),
    Position.advance_append, hskip more _ hblanks]

theorem tokens_ne_nil (scanner : Scanner) : scanner.tokens ≠ [] := by
  rw [tokens_eq_append]
  exact List.append_ne_nil_of_right_ne_nil _ (List.cons_ne_nil _ _)

/-- Lower down in a text the tokens are the same, lower down. -/
theorem tokens_below (rest : List Char) (position : Position)
    (lines : Nat) :
    (⟨rest, position.below lines⟩ : Scanner).tokens
      = (⟨rest, position⟩ : Scanner).tokens.map (Token.below lines) := by
  generalize hsegments : cutAll rest = segments
  induction segments generalizing rest position with
  | nil =>
    obtain rfl : rest = [] := by rw [← texts_cutAll rest, hsegments, texts_nil]
    rw [tokens_nil, tokens_nil]
    rfl
  | cons first segments ih =>
    obtain ⟨_, _, -, -, hrest⟩ := cutAll_eq_cons hsegments
    rw [@tokens_of_cutAll ⟨rest, position.below lines⟩ _ _ hsegments,
      @tokens_of_cutAll ⟨rest, position⟩ _ _ hsegments, List.map_append,
      ← ih _ _ hrest, Position.advance_below]
    obtain ⟨text, _ | ⟨kind, value⟩⟩ := first <;> rfl

/-- The tokens of a text, without the end of input, come before those of
another text that starts on the line after it. -/
theorem tokens_append_newline (text more : List Char) (position : Position)
    (h : ∀ token ∈ (⟨text, position⟩ : Scanner).tokens,
      token.kind = .illegal → token.value ≠ "/*") :
    (⟨text ++ '\n' :: more, position⟩ : Scanner).tokens
      = (⟨text, position⟩ : Scanner).tokens.dropLast
        ++ (⟨more, (position.advance text).step '\n'⟩ : Scanner).tokens := by
  have hblank : ∀ c ∈ ['\n'], Text.isBlank c = true :=
    List.forall_mem_singleton.2 (by decide)
  generalize hsegments : cutAll text = segments
  induction segments generalizing text position with
  | nil =>
    obtain rfl : text = [] := by rw [← texts_cutAll text, hsegments, texts_nil]
    rw [tokens_nil]
    exact tokens_append_of_isBlank hblank more position
  | cons first segments ih =>
    obtain ⟨c, cs, -, hcut, hrest⟩ := cutAll_eq_cons hsegments
    have htext : first.text ++ texts segments = text := by
      rw [← texts_cons, ← hsegments, texts_cutAll]
    have hisCut : first.IsCut (texts segments) :=
      @isCut_of_cutAll text [] segments first hsegments
    generalize texts segments = rest at *
    subst htext
    have hfirst := tokens_append_of_isCut hisCut position
    rw [hfirst] at h ⊢
    -- an open comment would be read as the token that is excluded
    have hopen : first.reading? ≠ some (.illegal, ['/', '*']) := by
      intro hreading
      refine h ⟨.illegal, "/*", position⟩ (List.mem_append_left _ ?_) rfl rfl
      rw [token?, hreading]
      exact List.mem_singleton_self _
    have hafter := ih rest (position.advance first.text)
      (fun token htoken => h token (List.mem_append_right _ htoken)) hrest
    rw [List.append_assoc, Position.advance_append,
      List.dropLast_append_of_ne_nil (tokens_ne_nil _), List.append_assoc,
      ← hafter]
    rcases hisCut.append_newline hopen more with hjoint | ⟨rfl, hnone, hall⟩
    · exact tokens_append_of_isCut hjoint position
    · rw [tokens_append_of_isBlank hall, token?, hnone]
      rfl

end Scanner

-- ======================================================== whole texts

/-- A text and another one on the lines after it have the tokens of the
first and then those of the second, with its lines counted on from there,
if the first leaves no comment open. -/
theorem tokenize_append_newline {first second : String}
    (h : ∀ token ∈ tokenize first,
      token.kind = .illegal → token.value ≠ "/*") :
    tokenize (first ++ "\n" ++ second)
      = (tokenize first).dropLast
        ++ (tokenize second).map
          (Token.below (1 + first.toList.count '\n')) := by
  have htext : (first ++ "\n" ++ second).toList
      = first.toList ++ '\n' :: second.toList := by
    rw [String.toList_append, String.toList_append, List.append_assoc]
    rfl
  rw [tokenize, Scanner.ofText, htext, tokenize, tokenize, Scanner.ofText,
    Scanner.ofText, Scanner.tokens_append_newline _ _ _ h,
    Position.advance_start_newline, Scanner.tokens_below]

/-- A string that is not closed ends at the seam, and blanks go on over
it. -/
theorem tokenize_append_newline_string :
    ∃ first second, first = "x /*\n*/ \"a // " ∧ second = " \n\"b\""
      ∧ (∀ token ∈ tokenize first,
          token.kind = .illegal → token.value ≠ "/*")
      ∧ (tokenize first).map Token.lexeme
          = [⟨.identifier, "x"⟩, ⟨.illegal, "\""⟩, ⟨.eof, ""⟩]
      ∧ tokenize (first ++ "\n" ++ second)
          = (tokenize first).dropLast
            ++ (tokenize second).map
              (Token.below (1 + first.toList.count '\n')) := by
  have hclosed : ∀ token ∈ tokenize "x /*\n*/ \"a // ",
      token.kind = .illegal → token.value ≠ "/*" := by decide +kernel
  exact ⟨_, _, rfl, rfl, hclosed, by decide +kernel,
    tokenize_append_newline hclosed⟩

end JackSyntax
