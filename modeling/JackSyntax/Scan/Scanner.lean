/-
The scanner: a place in a source text, from which tokens are read one
at a time. It only ever moves forward and it never fails; at the end of
the text it yields the end-of-input token as often as it is asked.

Reading is cutting segments (`Segment.cut`) until one of them reads as
a token. A step consumes at least one character, which is the measure
by which reading ends.
-/
import JackSyntax.Token
import JackSyntax.Scan.Segment

namespace JackSyntax

/-- The text that is not yet scanned and where it starts. -/
structure Scanner where
  rest : List Char
  position : Position
  deriving DecidableEq, Repr

namespace Scanner

-- ============================================== places in a text

/-- The scanner at the start of a text. -/
def ofText (source : String) : Scanner := ⟨source.toList, .start⟩

/-- The unscanned text. -/
def remainder (scanner : Scanner) : String := String.ofList scanner.rest

/-- The unscanned text is empty. -/
def atEnd (scanner : Scanner) : Bool := scanner.rest.isEmpty

/-- How many bytes of UTF-8 are unscanned. -/
def bytesLeft (scanner : Scanner) : Nat := scanner.remainder.utf8ByteSize

/-- The same place under another line number; columns are as before. -/
def setLine (scanner : Scanner) (line : Nat) : Scanner :=
  { scanner with position.line := line }

-- ====================================================== reading

/-- The scanner past the next segment, with the token that the segment
reads as, if it is not a skipped one. There is no step at the end. -/
def step? (scanner : Scanner) : Option (Option Token × Scanner) :=
  match scanner.rest with
  | [] => none
  | c :: cs =>
    let (segment, rest) := Segment.cut c cs
    let token? := segment.reading?.map fun (kind, value) =>
      ⟨kind, String.ofList value, scanner.position⟩
    some (token?, ⟨rest, scanner.position.advance segment.text⟩)

/-- A step leaves less to scan. -/
theorem length_step?_lt {scanner after : Scanner} {token? : Option Token}
    (h : scanner.step? = some (token?, after)) :
    after.rest.length < scanner.rest.length := by
  unfold step? at h
  split at h
  · cases h
  · rename_i c cs hrest
    cases h
    rw [hrest]
    exact Segment.length_cut_lt c cs

/-- The next token and the scanner after it. -/
def next (scanner : Scanner) : Token × Scanner :=
  match _h : scanner.step? with
  | none => (.eof scanner.position, scanner)
  | some (some token, after) => (token, after)
  | some (none, after) => next after
termination_by scanner.rest.length
decreasing_by exact length_step?_lt _h

/-- All tokens from here on; the last one is the end of input. -/
def tokens (scanner : Scanner) : List Token :=
  match _h : scanner.step? with
  | none => [.eof scanner.position]
  | some (some token, after) => token :: tokens after
  | some (none, after) => tokens after
termination_by scanner.rest.length
decreasing_by all_goals exact length_step?_lt _h

/-- Reading a token never leaves more to scan. -/
theorem length_next_le (scanner : Scanner) :
    scanner.next.2.rest.length ≤ scanner.rest.length := by
  fun_induction next scanner with
  | case1 => exact Nat.le_refl _
  | case2 scanner token after hstep =>
    exact Nat.le_of_lt (length_step?_lt hstep)
  | case3 scanner after hstep ih =>
    exact Nat.le_trans ih (Nat.le_of_lt (length_step?_lt hstep))

/-- Reading a token that is not the end of input leaves less to scan. -/
theorem length_next_lt (scanner : Scanner)
    (h : scanner.next.1.kind ≠ .eof) :
    scanner.next.2.rest.length < scanner.rest.length := by
  fun_induction next scanner with
  | case1 => exact absurd rfl h
  | case2 scanner token after hstep => exact length_step?_lt hstep
  | case3 scanner after hstep ih =>
    exact Nat.lt_trans (ih h) (length_step?_lt hstep)

end Scanner

/-- The tokens of a source text. -/
def tokenize (source : String) : List Token := (Scanner.ofText source).tokens

end JackSyntax
