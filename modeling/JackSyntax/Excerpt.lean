/-
Excerpts: an error shown together with the source line it points into.

    [line 3] Error at ';': term expected
      (a term is a constant, a variable, ...)
    -> Main.jack
      |
    3 | let x = ;
      | --------^

The source row leaves out the line's leading blanks, so the marker row
is shorter by as many characters and its caret stands under the first
character of the token.

A row is set in a field of at most 65535 characters. An error further
to the right than that breaks the excerpt off after the source row.
-/
import JackSyntax.SyntaxError
import JackSyntax.Text.Blank
import JackSyntax.Text.Lines

namespace JackSyntax

/-- A printed excerpt: complete, or broken off because the marker row
does not fit its field. -/
inductive Excerpt
  | complete (text : String)
  | brokenOff (text : String)
  deriving DecidableEq, Repr

namespace Excerpt

/-- What has been printed. -/
def text : Excerpt → String
  | .complete text => text
  | .brokenOff text => text

/-- The widest field. -/
def maxWidth : Nat := 65535

-- ========================================================== rows

/-- A character at the right end of a field of the given width. -/
def alignRight (fill : Char) (width : Nat) (c : Char) : String :=
  String.ofList (List.replicate (width - 1) fill ++ [c])

/-- The characters before the first one that is neither a blank nor a
tab. -/
def indent (line : List Char) : List Char :=
  line.takeWhile fun c => c == ' ' || c == '\t'

/-- The line as the source row shows it: without its indent, and without
blanks of any sort at its end. -/
def shown (line : List Char) : List Char :=
  Text.trimEnd Text.isBlank (line.drop (indent line).length)

/-- How wide the marker is, its caret included. A column that lies in
the indent has its caret in the first place. -/
def markerWidth (column : Nat) (line : List Char) : Nat :=
  column - 1 - (indent line).length + 1

/-- The rows for an error: what is wrong, advice if there is some, and
the source line with its marker if the source has such a line. -/
def ofError (error : SyntaxError) (source file : String) : Excerpt :=
  let advice := match error.reason.tip? with
    | some tip => "  (" ++ tip ++ ")\n"
    | none => ""
  let head := error.message ++ "\n" ++ advice
  match Text.lineAt? source error.position.line with
  | none => .complete head
  | some line =>
    let number := error.position.line.repr
    let gutter := alignRight ' ' (number.length + 2) '|'
    let width := markerWidth error.position.column line.toList
    let body := head ++ "-> " ++ file ++ "\n" ++ gutter ++ "\n"
      ++ number ++ " | " ++ String.ofList (shown line.toList) ++ "\n"
    if width ≤ maxWidth then
      .complete (body ++ gutter ++ " " ++ alignRight '-' width '^' ++ "\n")
    else .brokenOff body

end Excerpt

end JackSyntax
