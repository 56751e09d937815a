/-
Cutting text: at a separator, at line ends, and from the end.

Lines are counted from one and end before a newline. A carriage return
is no line end of its own, but those that stand before the newline are
not part of the line's text.
-/
namespace JackSyntax.Text

-- ==================================================== cutting a list

/-- The stretches between the occurrences of a separator, in order. There
is always one more of them than there are separators. -/
def split (separator : Char) : List Char → List (List Char)
  | [] => [[]]
  | c :: cs =>
    if c = separator then [] :: split separator cs
    else
      match split separator cs with
      | [] => [[c]]
      | piece :: pieces => (c :: piece) :: pieces

/-- The text without its longest ending that satisfies the test. -/
def trimEnd (test : Char → Bool) (text : List Char) : List Char :=
  (text.reverse.dropWhile test).reverse

/-- Cutting never yields nothing at all. -/
theorem split_ne_nil (separator : Char) (text : List Char) :
    split separator text ≠ [] := by
  cases text with
  | nil => simp [split]
  | cons c cs =>
    simp only [split]
    split
    · simp
    · split <;> simp

/-- One piece more than separators. -/
theorem length_split (separator : Char) (text : List Char) :
    (split separator text).length = text.count separator + 1 := by
  induction text with
  | nil => rfl
  | cons c cs ih =>
    simp only [split]
    split
    · rename_i h
      simp [h, ih]
    · rename_i h
      split
      · rename_i none
        exact absurd none (split_ne_nil separator cs)
      · rename_i piece pieces some
        rw [some] at ih
        simpa [List.count_cons, h] using ih

-- ========================================================== one line

/-- The text of a line, counted from one, without its line end. A source
has no line zero, and none after the one that follows its last newline. -/
def lineAt? (source : String) : (line : Nat) → Option String
  | 0 => none
  | line + 1 =>
    (split '\n' source.toList)[line]?.map fun text =>
      String.ofList (trimEnd (· == '\r') text)

end JackSyntax.Text
