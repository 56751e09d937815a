/-
Segments: the stretches that a nonempty text is cut into, one at a time
from its front. A segment is either skipped (a run of blanks or a
comment) or reads as one token.

The first character decides which kind of segment it is, so each form
has its own cutting function here and `cut` only chooses among them.
Cutting never fails: a character that opens nothing, and a string or a
comment that is opened and not closed, read as illegal tokens. Each cut
returns the segment with what is left, and `cut_append` says that the
two together are the text that was there before, so scanning loses
nothing and always moves on.
-/
import JackSyntax.Kind
import JackSyntax.Text.Blank

namespace JackSyntax

/-- A stretch of text, with what it reads as unless it is skipped: the
kind and the value of a token. -/
structure Segment where
  text : List Char
  reading? : Option (Kind × List Char)
  deriving DecidableEq, Repr

namespace Segment

/-- A stretch that no token comes from. -/
def skipped (text : List Char) : Segment := ⟨text, none⟩

/-- A stretch that is the value of its token. -/
def plain (kind : Kind) (text : List Char) : Segment :=
  ⟨text, some (kind, text)⟩

-- ============================================= one form at a time

/-- An identifier starts with a letter or an underscore, of the ASCII
characters only. -/
def isWordHead (c : Char) : Bool := c.isAlpha || c == '_'

/-- After its first character an identifier may also have digits. -/
def isWordTail (c : Char) : Bool := c.isAlphanum || c == '_'

/-- A string holds neither a quote nor a line end. -/
def isStringBody (c : Char) : Bool := c != '"' && c != '\n'

/-- The longest front of the text that satisfies the test, after a first
character that belongs to it in any case. -/
def run (test : Char → Bool) (c : Char) (cs : List Char) :
    List Char × List Char :=
  (c :: cs.takeWhile test, cs.dropWhile test)

/-- The kind of a word: its keyword if it is reserved, otherwise an
identifier. -/
def wordKind (word : List Char) : Kind :=
  (Kind.ofReserved? (String.ofList word)).getD .identifier

/-- What stands up to and including the first star and slash that close
a comment, and what follows them. -/
def commentEnd? : List Char → Option (List Char × List Char)
  | [] => none
  | '*' :: '/' :: rest => some (['*', '/'], rest)
  | c :: cs => (commentEnd? cs).map fun (body, rest) => (c :: body, rest)

/-- After a slash: a comment to the end of the line, a comment to its
closing mark, or the slash by itself. A comment that is never closed
takes the whole text and reads as its opening mark. -/
def cutSlash : List Char → Segment × List Char
  | '/' :: cs =>
    let (text, rest) := run (· != '\n') '/' cs
    (skipped ('/' :: text), rest)
  | '*' :: cs =>
    match commentEnd? cs with
    | some (body, rest) => (skipped ('/' :: '*' :: body), rest)
    | none => (⟨'/' :: '*' :: cs, some (.illegal, ['/', '*'])⟩, [])
  | cs => (plain .slash ['/'], cs)

/-- After a quote: a string up to the next quote on the line. Without
one the quote and the rest of the line read as an illegal quote. -/
def cutQuote (cs : List Char) : Segment × List Char :=
  let body := cs.takeWhile isStringBody
  match cs.dropWhile isStringBody with
  | '"' :: rest => (⟨'"' :: body ++ ['"'], some (.string, body)⟩, rest)
  | rest => (⟨'"' :: body, some (.illegal, ['"'])⟩, rest)

/-- After the first character of a word, the rest of the word. -/
def cutWord (c : Char) (cs : List Char) : Segment × List Char :=
  let (word, rest) := run isWordTail c cs
  (plain (wordKind word) word, rest)

-- ==================================================== the first cut

/-- The first segment of a nonempty text, and the text after it. -/
def cut (c : Char) (cs : List Char) : Segment × List Char :=
  if Text.isBlank c then
    let (text, rest) := run Text.isBlank c cs
    (skipped text, rest)
  else if c = '/' then cutSlash cs
  else if c = '"' then cutQuote cs
  else if c.isDigit then
    let (text, rest) := run Char.isDigit c cs
    (plain .number text, rest)
  else if isWordHead c then cutWord c cs
  else (plain ((Kind.ofSymbol? c).getD .illegal) [c], cs)

-- ================================================= nothing is lost

theorem run_append (test : Char → Bool) (c : Char) (cs : List Char) :
    (run test c cs).1 ++ (run test c cs).2 = c :: cs := by
  simp [run]

theorem commentEnd?_append {text body rest : List Char}
    (h : commentEnd? text = some (body, rest)) : body ++ rest = text := by
  fun_induction commentEnd? text generalizing body with
  | case1 => cases h
  | case2 rest => cases h; rfl
  | case3 c cs _ ih =>
    obtain ⟨⟨body', rest'⟩, h', heq⟩ := Option.map_eq_some_iff.1 h
    cases heq
    rw [List.cons_append, ih h']

theorem cutSlash_append (cs : List Char) :
    (cutSlash cs).1.text ++ (cutSlash cs).2 = '/' :: cs := by
  fun_cases cutSlash cs with
  | case1 cs text rest h =>
    have happ := run_append (· != '\n') '/' cs
    rw [h] at happ
    simp only [skipped, List.cons_append]
    rw [happ]
  | case2 cs body rest h =>
    simp [skipped, commentEnd?_append h]
  | case3 => simp
  | case4 => simp [plain]

theorem cutQuote_append (cs : List Char) :
    (cutQuote cs).1.text ++ (cutQuote cs).2 = '"' :: cs := by
  have happ := List.takeWhile_append_dropWhile (p := isStringBody) (l := cs)
  simp only [cutQuote]
  split
  · rename_i h
    rw [h] at happ
    simpa using happ
  · simp

theorem cutWord_append (c : Char) (cs : List Char) :
    (cutWord c cs).1.text ++ (cutWord c cs).2 = c :: cs :=
  run_append isWordTail c cs

/-- A segment and the text after it are the text there was. -/
theorem cut_append (c : Char) (cs : List Char) :
    (cut c cs).1.text ++ (cut c cs).2 = c :: cs := by
  simp only [cut]
  split
  · exact run_append _ c cs
  split
  · rename_i h
    rw [h]
    exact cutSlash_append cs
  split
  · rename_i h
    rw [h]
    exact cutQuote_append cs
  split
  · exact run_append _ c cs
  split
  · exact cutWord_append c cs
  · rfl

-- ============================================== every cut moves on

theorem cutSlash_text_ne_nil (cs : List Char) :
    (cutSlash cs).1.text ≠ [] := by
  fun_cases cutSlash cs <;> simp [skipped, plain]

theorem cutQuote_text_ne_nil (cs : List Char) :
    (cutQuote cs).1.text ≠ [] := by
  simp only [cutQuote]
  split <;> simp

/-- No segment is empty. -/
theorem cut_text_ne_nil (c : Char) (cs : List Char) :
    (cut c cs).1.text ≠ [] := by
  simp only [cut]
  split
  · simp [run, skipped]
  split
  · exact cutSlash_text_ne_nil cs
  split
  · exact cutQuote_text_ne_nil cs
  split
  · simp [run, plain]
  split
  · simp [cutWord, run, plain]
  · simp [plain]

/-- What is left after a segment is shorter than what there was. -/
theorem length_cut_lt (c : Char) (cs : List Char) :
    (cut c cs).2.length < (c :: cs).length := by
  have happ := congrArg List.length (cut_append c cs)
  have hpos := List.length_pos_iff.2 (cut_text_ne_nil c cs)
  rw [List.length_append] at happ
  omega

end Segment

end JackSyntax
