/-
Scanning undoes printing. Tokens can be written one after the other in
many ways: what stands between two of them only has to start with a blank
and may go on with any number of blanks and comments. Whatever the layout
is, scanning it gives the tokens back (`map_lexeme_tokenize`).

The types here hold nothing that could not be written: a comment cannot
hold what would close it, a lexeme is one that has a text. So the law
needs no assumptions. Its proof goes along the layout and shows of every
piece the form of segment that it is, before whatever comes next.
-/
import JackSyntax.Proofs.Scan.Determinacy

namespace JackSyntax

open Segment

-- ========================================================== separators

/-- A blank, or a comment with what ends it. -/
inductive Filler
  | blank (c : Char) (h : Text.isBlank c = true)
  /-- A comment between its two marks. -/
  | comment (body : List Char) (h : ¬ ['*', '/'] <:+: body)
  /-- A comment with the newline after it. -/
  | lineComment (body : List Char) (h : '\n' ∉ body)

def Filler.text : Filler → List Char
  | .blank c _ => [c]
  | .comment body _ => '/' :: '*' :: body ++ ['*', '/']
  | .lineComment body _ => '/' :: '/' :: body ++ ['\n']

/-- What may stand between two tokens: a blank first, and then whatever is
skipped. -/
structure Separator where
  first : Char
  isBlank_first : Text.isBlank first = true
  more : List Filler

def Separator.text (separator : Separator) : List Char :=
  separator.first :: separator.more.flatMap Filler.text

-- ============================================================= lexemes

namespace Lexeme

/-- The lexemes that can be written down. -/
inductive IsAdmissible : Lexeme → Prop
  /-- A keyword or a symbol, spelled as it is. -/
  | fixed {kind : Kind} {value : String} (h : kind.spelling? = some value) :
    IsAdmissible ⟨kind, value⟩
  /-- A word of letters, digits and underscores that does not start with a
  digit and is not reserved. -/
  | identifier {c : Char} {cs : List Char} (hhead : isWordHead c = true)
    (htail : ∀ d ∈ cs, isWordTail d = true)
    (hfree : ∀ kind ∈ Kind.keywords,
      kind.spelling? ≠ some (String.ofList (c :: cs))) :
    IsAdmissible ⟨.identifier, String.ofList (c :: cs)⟩
  /-- One digit or more. -/
  | number {digits : List Char} (hne : digits ≠ [])
    (hdigits : ∀ c ∈ digits, c.isDigit = true) :
    IsAdmissible ⟨.number, String.ofList digits⟩
  /-- Anything without a quote and a line end. -/
  | string {value : List Char} (hquote : '"' ∉ value)
    (hline : '\n' ∉ value) :
    IsAdmissible ⟨.string, String.ofList value⟩

/-- How a lexeme is written: a string in quotes, anything else as it
is. -/
def text (lexeme : Lexeme) : List Char :=
  if lexeme.kind = .string then '"' :: lexeme.value.toList ++ ['"']
  else lexeme.value.toList

end Lexeme

/-- Lexemes with separators before, between and after them. -/
structure Layout where
  front : Separator
  items : List ({lexeme : Lexeme // lexeme.IsAdmissible} × Separator)

namespace Layout

def lexemes (layout : Layout) : List Lexeme :=
  layout.items.map fun (lexeme, _) => lexeme.val

def text (layout : Layout) : String :=
  String.ofList (layout.front.text
    ++ layout.items.flatMap fun (lexeme, separator) =>
      lexeme.val.text ++ separator.text)

end Layout

-- ===================================================== what is skipped

namespace Segment

/-- Blanks at the front of a text are skipped. -/
theorem lexemesIn_cons_of_isBlank {c : Char} (h : Text.isBlank c = true)
    (rest : List Char) : lexemesIn (c :: rest) = lexemesIn rest := by
  obtain ⟨hblanks, hafter⟩ := isRun_span Text.isBlank rest
  have happ := List.takeWhile_append_dropWhile (p := Text.isBlank) (l := rest)
  have hskip : ∀ text, text ≠ [] → (∀ d ∈ text, Text.isBlank d = true) →
      lexemesIn (text ++ rest.dropWhile Text.isBlank)
        = lexemesIn (rest.dropWhile Text.isBlank) := fun _ hne hall =>
    lexemesIn_append (.blanks hne ⟨hall, hafter⟩)
  calc lexemesIn (c :: rest)
      = lexemesIn ((c :: rest.takeWhile Text.isBlank)
          ++ rest.dropWhile Text.isBlank) := by
        rw [List.cons_append, happ]
    _ = lexemesIn (rest.dropWhile Text.isBlank) :=
        hskip _ (List.cons_ne_nil _ _) (List.forall_mem_cons.2 ⟨h, hblanks⟩)
    _ = lexemesIn rest := by
        by_cases hne : rest.takeWhile Text.isBlank = []
        · rw [hne, List.nil_append] at happ
          rw [happ]
        · rw [← hskip _ hne hblanks, happ]

/-- A closing mark cannot be made of the end of a comment and a star. -/
theorem not_infix_append_star {body : List Char}
    (h : ¬ ['*', '/'] <:+: body) : ¬ ['*', '/'] <:+: body ++ ['*'] := by
  intro hmark
  rcases List.infix_concat_iff.1 hmark with hend | hinside
  · obtain ⟨front, hfront⟩ := hend
    have hlast := congrArg List.getLast? hfront
    simp at hlast
  · exact h hinside

theorem lexemesIn_filler (filler : Filler) (rest : List Char) :
    lexemesIn (filler.text ++ rest) = lexemesIn rest := by
  cases filler with
  | blank c h => exact lexemesIn_cons_of_isBlank h rest
  | comment body h =>
    exact lexemesIn_append (.comment (not_infix_append_star h))
  | lineComment body h =>
    have hrun : IsRun (· != '\n') body ('\n' :: rest) := by
      refine ⟨fun c hc => ?_, ?_⟩
      · rw [bne_iff_ne]
        rintro rfl
        exact h hc
      · rintro _ ⟨⟩
        rfl
    rw [Filler.text, List.append_assoc]
    exact (lexemesIn_append (.lineComment hrun)).trans
      (lexemesIn_cons_of_isBlank (by decide) rest)

/-- Nothing is read from a separator. -/
theorem lexemesIn_separator (separator : Separator) (rest : List Char) :
    lexemesIn (separator.text ++ rest) = lexemesIn rest := by
  obtain ⟨first, hblank, more⟩ := separator
  rw [Separator.text, List.cons_append, lexemesIn_cons_of_isBlank hblank]
  induction more with
  | nil => rfl
  | cons filler more ih =>
    rw [List.flatMap_cons, List.append_assoc, lexemesIn_filler, ih]

-- ======================================================== what is read

theorem not_isBlank_of_isWordTail {c : Char} (h : isWordTail c = true) :
    Text.isBlank c = false := by
  by_cases hdigit : c.isDigit = true
  · exact not_isBlank_of_isDigit hdigit
  · have hhead : isWordHead c = true := by
      simp only [isWordTail, Char.isAlphanum, Bool.or_eq_true] at h
      simp only [isWordHead, Bool.or_eq_true]
      exact h.imp_left (·.resolve_right hdigit)
    exact (not_isBlank_of_isWordHead hhead).1

/-- A run of what is not blank ends before a blank. -/
theorem isRun_of_isBlank {test : Char → Bool} {text rest : List Char}
    (htest : ∀ c, test c = true → Text.isBlank c = false)
    (htext : ∀ c ∈ text, test c = true)
    (hrest : ∀ c ∈ rest.head?, Text.isBlank c = true) :
    IsRun test text rest := by
  refine ⟨htext, fun c hc => ?_⟩
  cases hin : test c with
  | false => rfl
  | true =>
    have hblank := hrest c hc
    rw [htest c hin] at hblank
    cases hblank

/-- The spelling of a keyword is a word. -/
theorem isWord_spelling {kind : Kind} (hkind : kind ∈ Kind.keywords)
    {value : String} (h : kind.spelling? = some value) :
    ∃ c cs, value = String.ofList (c :: cs) ∧ isWordHead c = true
      ∧ ∀ d ∈ cs, isWordTail d = true := by
  have hall : ∀ kind ∈ Kind.keywords, ∀ value ∈ kind.spelling?,
      value.toList.head?.any isWordHead = true
        ∧ value.toList.tail.all isWordTail = true := by decide
  obtain ⟨hhead, htail⟩ := hall kind hkind value h
  cases hvalue : value.toList with
  | nil =>
    rw [hvalue] at hhead
    cases hhead
  | cons c cs =>
    rw [hvalue] at hhead htail
    refine ⟨c, cs, ?_, hhead, List.all_eq_true.1 htail⟩
    rw [← hvalue, String.ofList_toList]

/-- The spelling of a symbol is one character. -/
theorem isCharacter_spelling {kind : Kind} (hkind : kind ∈ Kind.symbols)
    {value : String} (h : kind.spelling? = some value) :
    ∃ c, value = String.ofList [c] := by
  have hall : ∀ kind ∈ Kind.symbols, ∀ value ∈ kind.spelling?,
      value.toList.length = 1 := by decide
  obtain ⟨c, hvalue⟩ := List.length_eq_one_iff.1 (hall kind hkind value h)
  exact ⟨c, by rw [← hvalue, String.ofList_toList]⟩

/-- A lexeme before a blank has the form of its kind. -/
theorem isCut_lexeme {lexeme : Lexeme} (h : lexeme.IsAdmissible)
    {rest : List Char} (hrest : ∀ c ∈ rest.head?, Text.isBlank c = true) :
    IsCut ⟨lexeme.text, some (lexeme.kind, lexeme.value.toList)⟩ rest := by
  cases h with
  | @fixed kind value hspelling =>
    have hsome : (kind.isKeyword || kind.isSymbol) = true := by
      rw [← kind.spelling?_isSome, hspelling, Option.isSome_some]
    have hplain : Lexeme.text ⟨kind, value⟩ = value.toList := by
      rw [Lexeme.text, if_neg]
      rintro rfl
      cases hspelling
    rw [hplain]
    rcases Bool.or_eq_true .. |>.mp hsome with hkeyword | hsymbol
    · have hkind : kind ∈ Kind.keywords := List.contains_iff_mem.1 hkeyword
      obtain ⟨c, cs, rfl, hhead, htail⟩ := isWord_spelling hkind hspelling
      rw [String.toList_ofList]
      exact .keyword hhead
        (isRun_of_isBlank (fun _ => not_isBlank_of_isWordTail) htail hrest)
        hkind hspelling
    · have hkind : kind ∈ Kind.symbols := List.contains_iff_mem.1 hsymbol
      obtain ⟨c, rfl⟩ := isCharacter_spelling hkind hspelling
      rw [String.toList_ofList]
      refine .symbol hkind hspelling fun _ d hd => ?_
      have hblank := hrest d hd
      constructor
      · rintro rfl
        cases hblank
      · rintro rfl
        cases hblank
  | @identifier c cs hhead htail hfree =>
    simp only [Lexeme.text, String.toList_ofList]
    exact .identifier hhead
      (isRun_of_isBlank (fun _ => not_isBlank_of_isWordTail) htail hrest)
      hfree
  | @number digits hne hdigits =>
    simp only [Lexeme.text, String.toList_ofList]
    exact .number hne
      (isRun_of_isBlank (fun _ => not_isBlank_of_isDigit) hdigits hrest)
  | @string value hquote hline =>
    simp only [Lexeme.text, String.toList_ofList]
    exact .string hquote hline

/-- A lexeme before a separator is read. -/
theorem lexemesIn_lexeme {lexeme : Lexeme} (h : lexeme.IsAdmissible)
    (separator : Separator) (rest : List Char) :
    lexemesIn (lexeme.text ++ (separator.text ++ rest))
      = lexeme :: lexemesIn rest := by
  have hcut : IsCut ⟨lexeme.text, some (lexeme.kind, lexeme.value.toList)⟩
      (separator.text ++ rest) := by
    apply isCut_lexeme h
    rintro _ ⟨⟩
    exact separator.isBlank_first
  have hread := lexemesIn_append hcut
  rw [lexemesIn_separator, lexeme?, Option.map_some, String.ofList_toList]
    at hread
  exact hread

end Segment

-- ========================================================= whole layouts

/-- Scanning a layout gives its lexemes back, and then the end of
input. -/
theorem map_lexeme_tokenize (layout : Layout) :
    (tokenize layout.text).map Token.lexeme
      = layout.lexemes ++ [⟨.eof, ""⟩] := by
  have hitems : ∀ items : List
      ({lexeme : Lexeme // lexeme.IsAdmissible} × Separator),
      lexemesIn (items.flatMap fun (lexeme, separator) =>
          lexeme.val.text ++ separator.text)
        = items.map fun (lexeme, _) => lexeme.val := by
    intro items
    induction items with
    | nil => exact lexemesIn_nil
    | cons item items ih =>
      rw [List.flatMap_cons, List.append_assoc,
        lexemesIn_lexeme item.1.property, ih, List.map_cons]
  rw [tokenize, Scanner.map_lexeme_tokens, Scanner.ofText, Layout.text,
    String.toList_ofList, lexemesIn_separator, hitems, Layout.lexemes]

/-- Quotes and slashes in comments are nothing, and the other way round. -/
example : (tokenize " x\t/*\"*//**/ //\n\"//\" ").map Token.lexeme
    = [⟨.identifier, "x"⟩, ⟨.string, "//"⟩, ⟨.eof, ""⟩] := by
  decide +kernel

end JackSyntax
