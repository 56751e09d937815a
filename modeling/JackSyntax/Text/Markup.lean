/-
Text inside XML: the four characters with a meaning in markup are
written as entities and all others as they stand.
-/
namespace JackSyntax.Text

/-- How one character is written between two tags. -/
def entity (c : Char) : List Char :=
  match c with
  | '<' => "&lt;".toList
  | '>' => "&gt;".toList
  | '&' => "&amp;".toList
  | '"' => "&quot;".toList
  | _ => [c]

/-- The text with every character of markup written as its entity. -/
def escape (text : String) : String :=
  String.ofList (text.toList.flatMap entity)

end JackSyntax.Text
