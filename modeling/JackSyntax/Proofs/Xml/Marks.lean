/-
Reading XML back. Every line of a rendering is one mark: the start or the
end of an element that stands alone on its line, or an element with a
value between its tags. A value may hold line ends, blanks and quotes of
its own, but no opening bracket, since that is written as an entity; so
the next bracket is where the value ends, and there the mark is read off
without looking at the lines (`marks_append`).

The reading is total. On a text that is no rendering it stops at the
first place that is no mark.
-/
import JackSyntax.Trace

namespace JackSyntax

namespace Text

-- ============================================================ entities

/-- The text that is written with entities. -/
def unescape : List Char → List Char
  | [] => []
  | '&' :: 'l' :: 't' :: ';' :: cs => '<' :: unescape cs
  | '&' :: 'g' :: 't' :: ';' :: cs => '>' :: unescape cs
  | '&' :: 'a' :: 'm' :: 'p' :: ';' :: cs => '&' :: unescape cs
  | '&' :: 'q' :: 'u' :: 'o' :: 't' :: ';' :: cs => '"' :: unescape cs
  | c :: cs => c :: unescape cs

/-- Each character is read back from the front, whatever follows it: an
ampersand is always the start of an entity. -/
theorem unescape_entity (c : Char) (cs : List Char) :
    unescape (entity c ++ cs) = c :: unescape cs := by
  unfold entity
  split
  · rfl
  · rfl
  · rfl
  · rfl
  · rename_i hamp _
    show unescape (c :: cs) = c :: unescape cs
    rw [unescape]
    all_goals exact fun _ heq => absurd heq hamp

/-- Escaping is undone. -/
theorem unescape_escape (text : String) :
    unescape (escape text).toList = text.toList := by
  rw [escape, String.toList_ofList]
  induction text.toList with
  | nil => rfl
  | cons c cs ih => rw [List.flatMap_cons, unescape_entity, ih]

/-- No opening bracket is left in a text that is escaped. -/
theorem not_mem_escape (text : String) : '<' ∉ (escape text).toList := by
  rw [escape, String.toList_ofList, List.mem_flatMap]
  rintro ⟨c, -, hc⟩
  unfold entity at hc
  split at hc
  · simp at hc
  · simp at hc
  · simp at hc
  · simp at hc
  · rename_i hless _ _ _
    exact hless (List.mem_singleton.1 hc).symm

end Text

-- =============================================================== marks

/-- What a line of XML says: an element starts, an element ends, or there
is one with a value. -/
inductive Mark
  | opening (name : String)
  | closing (name : String)
  | element (name value : String)
  deriving DecidableEq, Repr

namespace Mark

def name : Mark → String
  | .opening name | .closing name | .element name _ => name

/-- The mark as it is written. -/
def text : Mark → String
  | .opening name => "<" ++ name ++ ">"
  | .closing name => "</" ++ name ++ ">"
  | .element name value =>
    "<" ++ name ++ "> " ++ Text.escape value ++ " </" ++ name ++ ">"

/-- The name can be told from what stands around it. -/
def IsNamed (mark : Mark) : Prop :=
  '>' ∉ mark.name.toList ∧ '\n' ∉ mark.name.toList
    ∧ mark.name.toList.head? ≠ some '/'
  deriving Decidable

/-- The mark of a tag that stands alone. -/
def ofTag : List Char → Mark
  | '/' :: name => .closing (String.ofList name)
  | name => .opening (String.ofList name)

theorem ofTag_of_head? {name : List Char} (h : name.head? ≠ some '/') :
    ofTag name = .opening (String.ofList name) := by
  unfold ofTag
  split
  · exact absurd rfl h
  · rfl

end Mark

/-- The mark at the front of a text, and what follows its line. -/
def nextMark? (text : List Char) : Option (Mark × List Char) :=
  match text.dropWhile (· == ' ') with
  | '<' :: tagged =>
    let name := tagged.takeWhile (· != '>')
    match tagged.dropWhile (· != '>') with
    | '>' :: '\n' :: rest => some (.ofTag name, rest)
    | '>' :: ' ' :: inside =>
      -- a blank stands between the value and the closing tag
      let value := (inside.takeWhile (· != '<')).dropLast
      let closing := inside.dropWhile (· != '<')
      some (.element (String.ofList name) (String.ofList (Text.unescape value)),
        (closing.dropWhile (· != '\n')).tail)
    | _ => none
  | _ => none

/-- What stands before a separator and what stands after it. -/
theorem takeWhile_append_cons {before : List Char} {separator : Char}
    (h : separator ∉ before) (rest : List Char) :
    (before ++ separator :: rest).takeWhile (· != separator) = before
      ∧ (before ++ separator :: rest).dropWhile (· != separator)
          = separator :: rest := by
  have hbefore : ∀ c ∈ before, (c != separator) = true := by
    rintro c hc
    rw [bne_iff_ne]
    rintro rfl
    exact h hc
  constructor
  · rw [List.takeWhile_append_of_pos hbefore]
    simp
  · rw [List.dropWhile_append_of_pos hbefore]
    simp

/-- What stands after a run of one character. -/
theorem dropWhile_replicate_append {c d : Char} (h : d ≠ c) (count : Nat)
    (rest : List Char) :
    (List.replicate count c ++ d :: rest).dropWhile (· == c)
      = d :: rest := by
  rw [List.dropWhile_append_of_pos (by simp [List.mem_replicate])]
  simp [h]

/-- A tag that ends its line is a mark. -/
theorem nextMark?_tag {tag : List Char} (h : '>' ∉ tag) (indent : Nat)
    (rest : List Char) :
    nextMark? (List.replicate indent ' '
      ++ '<' :: (tag ++ '>' :: '\n' :: rest)) = some (.ofTag tag, rest) := by
  obtain ⟨htake, hdrop⟩ := takeWhile_append_cons h ('\n' :: rest)
  rw [nextMark?, dropWhile_replicate_append (by decide)]
  simp only [htake, hdrop]

/-- A tag that does not end its line is a mark with the value after it,
up to the blank before the next tag. -/
theorem nextMark?_element {tag escaped closing : List Char}
    (htag : '>' ∉ tag) (hescaped : '<' ∉ escaped)
    (hclosing : '\n' ∉ closing) (indent : Nat) (rest : List Char) :
    nextMark? (List.replicate indent ' ' ++ '<' :: (tag ++ '>' :: ' ' ::
      (escaped ++ [' '] ++ '<' :: (closing ++ '\n' :: rest))))
      = some (.element (String.ofList tag)
          (String.ofList (Text.unescape escaped)), rest) := by
  have hvalue : '<' ∉ escaped ++ [' '] := by simp [hescaped]
  have hline : '\n' ∉ '<' :: closing := by simp [hclosing]
  obtain ⟨htake, hdrop⟩ := takeWhile_append_cons htag
    (' ' :: (escaped ++ [' '] ++ '<' :: (closing ++ '\n' :: rest)))
  obtain ⟨htake', hdrop'⟩ :=
    takeWhile_append_cons hvalue (closing ++ '\n' :: rest)
  have hdrop'' : ('<' :: (closing ++ '\n' :: rest)).dropWhile (· != '\n')
      = '\n' :: rest := (takeWhile_append_cons hline rest).2
  rw [nextMark?, dropWhile_replicate_append (by decide)]
  simp only [htake, hdrop]
  rw [htake', hdrop', hdrop'', List.dropLast_concat, List.tail_cons]

/-- A mark is read off the front of a text, whatever blanks stand before
it and whatever lines follow. -/
theorem nextMark?_append {mark : Mark} (h : mark.IsNamed) (indent : Nat)
    (rest : List Char) :
    nextMark? (List.replicate indent ' ' ++ (mark.text.toList
      ++ '\n' :: rest)) = some (mark, rest) := by
  obtain ⟨hclose, hline, hslash⟩ := h
  cases mark with
  | opening name =>
    have hread := nextMark?_tag hclose indent rest
    have htag : Mark.ofTag name.toList = _ := Mark.ofTag_of_head? hslash
    rw [Mark.name, htag, String.ofList_toList] at hread
    simpa [Mark.text] using hread
  | closing name =>
    have htag : '>' ∉ '/' :: name.toList := by
      rw [List.mem_cons, not_or]
      exact ⟨by decide, hclose⟩
    have hread := nextMark?_tag htag indent rest
    rw [Mark.ofTag, String.ofList_toList] at hread
    simpa [Mark.text] using hread
  | element name value =>
    have hclosing : '\n' ∉ '/' :: (name.toList ++ ['>']) := by
      simpa [Mark.name] using hline
    have hread := nextMark?_element hclose (Text.not_mem_escape value)
      hclosing indent rest
    rw [Text.unescape_escape, String.ofList_toList, Mark.name,
      String.ofList_toList] at hread
    simpa [Mark.text] using hread

-- =========================================================== all marks

/-- Reading a mark leaves less to read. -/
theorem length_nextMark?_lt {text rest : List Char} {mark : Mark}
    (h : nextMark? text = some (mark, rest)) :
    rest.length < text.length := by
  have hdrop : ∀ (test : Char → Bool) (cs : List Char),
      (cs.dropWhile test).length ≤ cs.length :=
    fun test _ => (List.dropWhile_suffix test).length_le
  have hspaces := hdrop (· == ' ') text
  unfold nextMark? at h
  split at h
  · rename_i tagged htagged
    have htag := hdrop (· != '>') tagged
    rw [htagged, List.length_cons] at hspaces
    split at h
    · rename_i hline
      cases h
      rw [hline] at htag
      simp only [List.length_cons] at htag
      omega
    · rename_i inside hvalue
      cases h
      have hclosing := hdrop (· != '<') inside
      have hrest := hdrop (· != '\n') (inside.dropWhile (· != '<'))
      rw [hvalue] at htag
      simp only [List.length_cons, List.length_tail] at htag ⊢
      omega
    · cases h
  · cases h

/-- The marks of a text, as far as it has any. -/
def marks (text : List Char) : List Mark :=
  match _h : nextMark? text with
  | none => []
  | some (mark, rest) => mark :: marks rest
termination_by text.length
decreasing_by exact length_nextMark?_lt _h

/-- The marks of a line are read before those of the next lines. -/
theorem marks_append {mark : Mark} (h : mark.IsNamed) (indent : Nat)
    (rest : List Char) :
    marks (List.replicate indent ' ' ++ (mark.text.toList ++ '\n' :: rest))
      = mark :: marks rest := by
  rw [marks]
  split
  · rename_i hnone
    rw [nextMark?_append h] at hnone
    cases hnone
  · rename_i hsome
    rw [nextMark?_append h] at hsome
    cases hsome
    rfl

end JackSyntax
