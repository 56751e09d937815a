/-
Tokens: a kind, the text that belongs to it, and where it starts.

A position counts lines and columns from one. Columns count characters,
so a position after some text is found by stepping over that text one
character at a time.
-/
import JackSyntax.Kind
import JackSyntax.Text.Markup

namespace JackSyntax

-- ========================================================= positions

/-- A place in a source text. -/
structure Position where
  line : Nat
  column : Nat
  deriving DecidableEq, Repr, Inhabited

namespace Position

/-- Where a text starts. -/
def start : Position := ⟨1, 1⟩

/-- The place after a character: the first column of the next line after
a newline, otherwise the next column. -/
def step (position : Position) (c : Char) : Position :=
  if c = '\n' then ⟨position.line + 1, 1⟩
  else ⟨position.line, position.column + 1⟩

/-- The place after a text. -/
def advance (position : Position) (text : List Char) : Position :=
  text.foldl step position

@[simp] theorem advance_nil (position : Position) :
    position.advance [] = position := rfl

theorem advance_append (position : Position) (first second : List Char) :
    position.advance (first ++ second)
      = (position.advance first).advance second :=
  List.foldl_append

/-- Lines go up by the newlines passed. -/
theorem advance_line (position : Position) (text : List Char) :
    (position.advance text).line = position.line + text.count '\n' := by
  induction text generalizing position with
  | nil => rfl
  | cons c cs ih =>
    change ((position.step c).advance cs).line = _
    rw [ih, List.count_cons]
    by_cases h : c = '\n' <;> simp [step, h]; omega

/-- Within a line the column goes up by the characters passed. -/
theorem advance_of_not_mem (position : Position) (text : List Char)
    (h : '\n' ∉ text) :
    position.advance text
      = ⟨position.line, position.column + text.length⟩ := by
  induction text generalizing position with
  | nil => rfl
  | cons c cs ih =>
    rw [List.mem_cons, not_or] at h
    change (position.step c).advance cs = _
    rw [ih _ h.2, step, if_neg (Ne.symm h.1)]
    simp only [List.length_cons, mk.injEq, true_and]
    omega

end Position

-- ============================================================ tokens

/-- A token of a source text. The value of a string leaves out its
quotes, and the end of input has an empty value. -/
structure Token where
  kind : Kind
  value : String
  position : Position
  deriving DecidableEq, Repr, Inhabited

namespace Token

/-- The token that stands for the end of input. -/
def eof (position : Position) : Token := ⟨.eof, "", position⟩

/-- The token as a terminal of the XML output. -/
def xml (token : Token) : String :=
  "<" ++ token.kind.xmlTag ++ "> " ++ Text.escape token.value
    ++ " </" ++ token.kind.xmlTag ++ ">"

end Token

/-- A list of tokens as XML, one line each. The end of input is left
out. -/
def tokensXml (tokens : List Token) : String :=
  let lines := (tokens.filter (·.kind != .eof)).map fun token =>
    token.xml ++ "\n"
  "<tokens>\n" ++ String.join lines ++ "</tokens>\n"

end JackSyntax
