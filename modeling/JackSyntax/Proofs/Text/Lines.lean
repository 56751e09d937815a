/-
The line that a place in a text stands on. Positions are counted from the
front of the text, one character at a time; lines are cut out of the
whole of it. That the two agree is seen by splitting the text at the
place: the newlines before it are as many as the lines before its own
(`getElem?_split`), and what it has before it on its line is what follows
the last of them.
-/
import JackSyntax.Text.Lines
import JackSyntax.Proofs.Scan.Lossless

namespace JackSyntax

namespace Text

-- =============================================================== pieces

/-- The first piece ends at the first separator. -/
theorem split_eq_cons (separator : Char) (text : List Char) :
    ∃ pieces, split separator text
      = text.takeWhile (· != separator) :: pieces := by
  induction text with
  | nil => exact ⟨[], rfl⟩
  | cons c cs ih =>
    obtain ⟨pieces, hpieces⟩ := ih
    by_cases hsep : c = separator
    · exact ⟨split separator cs, by simp [split, hsep]⟩
    · exact ⟨pieces, by simp [split, hsep, hpieces]⟩

/-- A separator cuts the text in two. -/
theorem split_append_cons (separator : Char) (front rest : List Char) :
    split separator (front ++ separator :: rest)
      = split separator front ++ split separator rest := by
  induction front with
  | nil => simp [split]
  | cons c front ih =>
    by_cases hsep : c = separator
    · simp [split, hsep, ih]
    · obtain ⟨pieces, hpieces⟩ := split_eq_cons separator front
      rw [hpieces] at ih
      simp [split, hsep, ih, hpieces]

/-- A text without the separator is one piece. -/
theorem split_of_not_mem {separator : Char} {text : List Char}
    (h : separator ∉ text) : split separator text = [text] := by
  induction text with
  | nil => rfl
  | cons c cs ih =>
    rw [List.mem_cons, not_or] at h
    rw [split, if_neg (Ne.symm h.1), ih h.2]

/-- What follows the last newline. -/
def lastLine (text : List Char) : List Char :=
  (text.reverse.takeWhile (· != '\n')).reverse

theorem not_mem_lastLine (text : List Char) : '\n' ∉ lastLine text := by
  rw [lastLine, List.mem_reverse]
  intro hmem
  have htest := List.all_eq_true.1 List.all_takeWhile _ hmem
  simp at htest

/-- A text is one line, or its last line follows a newline. -/
theorem eq_append_lastLine (text : List Char) :
    lastLine text = text ∨ ∃ front, text = front ++ '\n' :: lastLine text := by
  have hsplit := List.takeWhile_append_dropWhile
    (p := (· != '\n')) (l := text.reverse)
  have hhead := List.head?_dropWhile_not (· != '\n') text.reverse
  have htext := congrArg List.reverse hsplit
  rw [List.reverse_append, List.reverse_reverse] at htext
  cases hrest : text.reverse.dropWhile (· != '\n') with
  | nil =>
    rw [hrest] at htext
    exact .inl htext
  | cons c cs =>
    rw [hrest] at hhead htext
    obtain rfl : c = '\n' := by simpa using hhead
    refine .inr ⟨cs.reverse, ?_⟩
    rw [List.reverse_cons, List.append_assoc] at htext
    exact htext.symm

/-- The line of a place is found by the newlines before the place. -/
theorem getElem?_split (before rest : List Char) :
    (split '\n' (before ++ rest))[before.count '\n']?
      = some (lastLine before ++ rest.takeWhile (· != '\n')) := by
  have hline : ∀ line : List Char, '\n' ∉ line →
      (split '\n' (line ++ rest))[0]?
        = some (line ++ rest.takeWhile (· != '\n')) := by
    intro line hnone
    obtain ⟨pieces, hpieces⟩ := split_eq_cons '\n' (line ++ rest)
    rw [hpieces, List.takeWhile_append_of_pos]
    · rfl
    · rintro c hc
      rw [bne_iff_ne]
      rintro rfl
      exact hnone hc
  have hlast := not_mem_lastLine before
  rcases eq_append_lastLine before with hone | ⟨front, hfront⟩
  · rw [hone] at hlast ⊢
    rw [List.count_eq_zero_of_not_mem hlast]
    exact hline before hlast
  · generalize lastLine before = line at hlast hfront ⊢
    have hcount : (front ++ '\n' :: line).count '\n'
        = (split '\n' front).length := by
      rw [length_split, List.count_append, List.count_cons_self,
        List.count_eq_zero_of_not_mem hlast]
    rw [hfront, hcount, List.append_assoc, List.cons_append,
      split_append_cons, List.getElem?_append_right (Nat.le_refl _),
      Nat.sub_self]
    exact hline line hlast

-- ================================================================= ends

/-- What does not satisfy the test is not cut off. -/
theorem trimEnd_append_cons {test : Char → Bool} {c : Char}
    (h : test c = false) (front rest : List Char) :
    ∃ more, trimEnd test (front ++ c :: rest) = front ++ c :: more := by
  have hreverse : (front ++ c :: rest).reverse
      = rest.reverse ++ c :: front.reverse := by simp
  rw [trimEnd, hreverse, List.dropWhile_append]
  split
  · refine ⟨[], ?_⟩
    rw [List.dropWhile_cons_of_neg (by simp [h])]
    simp
  · exact ⟨(rest.reverse.dropWhile test).reverse, by simp⟩

theorem length_trimEnd_le (test : Char → Bool) (text : List Char) :
    (trimEnd test text).length ≤ text.length := by
  rw [trimEnd, List.length_reverse, ← text.length_reverse]
  exact (List.dropWhile_suffix test).length_le

end Text

-- ============================================================ positions

/-- The column of a place counts the characters before it on its line. -/
theorem Position.column_endOf (text : List Char) :
    (endOf text).column = 1 + (Text.lastLine text).length := by
  rw [Text.lastLine, List.length_reverse, endOf]

/-- The text of the line that a place stands on. -/
theorem Text.lineAt?_endOf {source : String} {before rest : List Char}
    (h : source.toList = before ++ rest) :
    lineAt? source (Position.endOf before).line
      = some (String.ofList (trimEnd (· == '\r')
          (lastLine before ++ rest.takeWhile (· != '\n')))) := by
  have hline : (Position.endOf before).line = before.count '\n' + 1 :=
    Nat.add_comm _ _
  rw [hline, lineAt?, h, getElem?_split]
  rfl

end JackSyntax
