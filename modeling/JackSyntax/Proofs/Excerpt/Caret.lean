/-
Where the caret of an excerpt stands. An error of a text points at a token
of it or at its end, by a position that the scanner has counted; the
excerpt finds the line of that position anew, drops its indent and sets a
marker under what is left. The caret comes to stand under the first
character of the token because that character is not blank: so no part of
the trimming can take it away, nor anything before it but the indent.

An error at the end of the text has nothing under its caret, whatever was
trimmed from the line.
-/
import JackSyntax.Excerpt
import JackSyntax.Proofs.Parse.CorrectPrefix
import JackSyntax.Proofs.Scan.Determinacy
import JackSyntax.Proofs.Scan.Tokens
import JackSyntax.Proofs.Text.Lines

namespace JackSyntax

-- ====================================================== what is pointed at

/-- A segment that is read starts with a character that is not blank. -/
theorem Segment.IsCut.exists_head {segment : Segment} {rest : List Char}
    {reading : Kind × List Char} (h : segment.IsCut rest)
    (hreading : segment.reading? = some reading) :
    ∃ c cs, segment.text = c :: cs ∧ Text.isBlank c = false := by
  cases h with
  | blanks => cases hreading
  | lineComment => cases hreading
  | comment => cases hreading
  | openComment => exact ⟨'/', _, rfl, by decide⟩
  | string => exact ⟨'"', _, rfl, by decide⟩
  | openString => exact ⟨'"', _, rfl, by decide⟩
  | @number text _ hne hrun =>
    obtain ⟨c, cs, rfl⟩ := List.exists_cons_of_ne_nil hne
    exact ⟨c, cs, rfl, not_isBlank_of_isDigit (hrun.1 c List.mem_cons_self)⟩
  | keyword hhead => exact ⟨_, _, rfl, (not_isBlank_of_isWordHead hhead).1⟩
  | identifier hhead => exact ⟨_, _, rfl, (not_isBlank_of_isWordHead hhead).1⟩
  | symbol hkind hspelling =>
    have hsymbol := Kind.ofSymbol?_eq_some_iff.2 ⟨hkind, hspelling⟩
    exact ⟨_, _, rfl, (not_isBlank_of_ofSymbol? hsymbol).1⟩
  | stray hblank => exact ⟨_, _, rfl, hblank⟩

/-- The next token of a parser over a text is the one that the scanner
yields after as many calls as tokens were accepted. -/
theorem Parser.Reaches.lookahead_text {parser after : Parser}
    {tokens : List Token} {scanner : Scanner}
    (h : parser.Reaches tokens after)
    (hwindow : parser.window = (scanner.next.1, .text scanner.next.2)) :
    after.lookahead = (Scanner.afterCalls tokens.length scanner).next.1 := by
  induction tokens generalizing parser scanner with
  | nil =>
    have hlookahead := lookahead_eq_of_window h
    rw [← hlookahead]
    exact congrArg Prod.fst hwindow
  | cons token tokens ih =>
    obtain ⟨-, htail⟩ := h
    have hsource : parser.source = .text scanner.next.2 :=
      congrArg Prod.snd hwindow
    refine ih htail ?_
    rw [window, advance, hsource]
    rfl

/-- An error in a text points at one of its tokens or at its end. -/
theorem exists_atToken_of_parseText {source : String} {limit : Nat}
    {error : SyntaxError} (h : parseText source limit = .error error) :
    ∃ calls, error = .atToken error.reason
      (Scanner.afterCalls calls (.ofText source)).next.1 := by
  obtain ⟨tokens, outcome, hruns, hresult⟩ :=
    exists_runs_parse (.ofText source) limit
  obtain ⟨-, herror⟩ := begins_of_error hruns (hresult.symm.trans h)
  refine ⟨tokens.length, ?_⟩
  rw [← hruns.reaches.lookahead_text rfl]
  exact herror

-- ============================================================ the rows

/-- What is not blank is told from what is. -/
theorem Text.ne_of_isBlank {c d : Char} (hc : isBlank c = false)
    (hd : isBlank d = true) : c ≠ d := by
  rintro rfl
  rw [hc] at hd
  cases hd

namespace Excerpt

/-- A character that is not blank is not of the indent, and of what stands
up to it nothing but the indent is left out. -/
theorem exists_shown_append_cons {c : Char} (h : Text.isBlank c = false)
    (front rest : List Char) :
    (indent (front ++ c :: rest)).length ≤ front.length
      ∧ ∃ more, shown (front ++ c :: rest)
        = front.drop (indent (front ++ c :: rest)).length ++ c :: more := by
  have htest : (c == ' ' || c == '\t') = false := by
    rw [Bool.or_eq_false_iff, beq_eq_false_iff_ne, beq_eq_false_iff_ne]
    exact ⟨Text.ne_of_isBlank h (by decide), Text.ne_of_isBlank h (by decide)⟩
  have hindent : indent (front ++ c :: rest) = indent front := by
    rw [indent, indent, List.takeWhile_append]
    split
    · rename_i hall
      rw [List.takeWhile_cons_of_neg (by simp [htest]), List.append_nil]
      exact ((List.takeWhile_prefix _).eq_of_length hall).symm
    · rfl
  have hle : (indent front).length ≤ front.length :=
    (List.takeWhile_prefix _).length_le
  rw [hindent, shown, hindent, List.drop_append_of_le_length hle]
  exact ⟨hle, Text.trimEnd_append_cons h _ _⟩

/-- What is shown of a line is no longer than the line without its
indent. -/
theorem length_shown_le (line : List Char) :
    (shown line).length ≤ line.length - (indent line).length := by
  rw [← List.length_drop]
  exact Text.length_trimEnd_le _ _

/-- The bar between the numbers of lines and their texts, on a row
without a number. -/
def gutter (line : Nat) : String := alignRight ' ' (line.repr.length + 2) '|'

/-- The rows above the source row. -/
def header (error : SyntaxError) (file : String) : String :=
  error.message ++ "\n"
    ++ (match error.reason.tip? with
      | some tip => "  (" ++ tip ++ ")\n"
      | none => "")
    ++ "-> " ++ file ++ "\n" ++ gutter error.position.line ++ "\n"

/-- The row that shows the line. -/
def sourceRow (line : Nat) (text : List Char) : String :=
  line.repr ++ " | " ++ String.ofList (shown text)

/-- The row with the marker, which ends in the caret. -/
def markerRow (position : Position) (text : List Char) : String :=
  gutter position.line ++ " "
    ++ alignRight '-' (markerWidth position.column text) '^'

/-- How many characters stand before the caret. -/
def caret (row : String) : Nat := row.toList.idxOf '^'

/-- With a line to show, an excerpt is its rows one after the other, as
far as the marker fits. -/
theorem ofError_eq {error : SyntaxError} {source line : String}
    (h : Text.lineAt? source error.position.line = some line)
    (file : String) :
    ofError error source file
      = if markerWidth error.position.column line.toList ≤ maxWidth then
          .complete (header error file
            ++ sourceRow error.position.line line.toList ++ "\n"
            ++ markerRow error.position line.toList ++ "\n")
        else .brokenOff (header error file
          ++ sourceRow error.position.line line.toList ++ "\n") := by
  cases htip : error.reason.tip? with
  | none =>
    simp only [ofError, h, htip, header, sourceRow, markerRow, gutter,
      String.append_assoc]
  | some tip =>
    simp only [ofError, h, htip, header, sourceRow, markerRow, gutter,
      String.append_assoc]

/-- The marker row has one caret, at its end. -/
theorem toList_markerRow (position : Position) (text : List Char) :
    ∃ lead, (markerRow position text).toList = lead ++ ['^'] ∧ '^' ∉ lead
      ∧ lead.length = position.line.repr.length + 3
        + (position.column - 1 - (indent text).length) := by
  refine ⟨List.replicate (position.line.repr.length + 1) ' ' ++ ['|', ' ']
    ++ List.replicate (position.column - 1 - (indent text).length) '-',
    ?_, ?_, ?_⟩
  · simp [markerRow, gutter, alignRight, markerWidth]
  · simp [List.mem_replicate]
  · simp
    omega

/-- The caret stands as far right as the token stands on the line without
its indent, behind the width of the number and the bar. -/
theorem caret_markerRow (position : Position) (text : List Char) :
    caret (markerRow position text) = position.line.repr.length + 3
      + (position.column - 1 - (indent text).length) := by
  obtain ⟨lead, hrow, hlead, hlength⟩ := toList_markerRow position text
  rw [caret, hrow, List.idxOf_append, if_neg hlead, hlength]
  simp

theorem count_caret_markerRow (position : Position) (text : List Char) :
    (markerRow position text).toList.count '^' = 1 := by
  obtain ⟨lead, hrow, hlead, -⟩ := toList_markerRow position text
  rw [hrow, List.count_append, List.count_eq_zero_of_not_mem hlead]
  rfl

theorem toList_sourceRow (line : Nat) (text : List Char) :
    ∃ lead, (sourceRow line text).toList = lead ++ shown text
      ∧ lead.length = line.repr.length + 3 :=
  ⟨line.repr.toList ++ [' ', '|', ' '], by simp [sourceRow], by
    rw [List.length_append, String.length_toList]
    rfl⟩

-- ========================================================= the caret

/-- What is right of the number and the bar: the character that has as
many characters of the shown line before it. -/
theorem getElem?_sourceRow (line offset : Nat) (text : List Char) :
    (sourceRow line text).toList[line.repr.length + 3 + offset]?
      = (shown text)[offset]? := by
  obtain ⟨lead, hrow, hlead⟩ := toList_sourceRow line text
  rw [hrow, ← hlead, List.getElem?_append_right (Nat.le_add_right _ _),
    Nat.add_sub_cancel_left]

theorem length_sourceRow (line : Nat) (text : List Char) :
    (sourceRow line text).toList.length
      = line.repr.length + 3 + (shown text).length := by
  obtain ⟨lead, hrow, hlead⟩ := toList_sourceRow line text
  rw [hrow, List.length_append, hlead]

/-- Before a character that is not blank, the caret stands under it. -/
theorem exists_line_of_append {source : String} {before rest : List Char}
    {c : Char} (h : source.toList = before ++ c :: rest)
    (hblank : Text.isBlank c = false) :
    ∃ line, Text.lineAt? source (Position.endOf before).line = some line
      ∧ (indent line.toList).length + 1 ≤ (Position.endOf before).column
      ∧ (sourceRow (Position.endOf before).line line.toList).toList[
          caret (markerRow (.endOf before) line.toList)]? = some c := by
  have hnewline : c ≠ '\n' := Text.ne_of_isBlank hblank (by decide)
  have hreturn : c ≠ '\r' := Text.ne_of_isBlank hblank (by decide)
  -- only the carriage returns behind the character can be trimmed
  obtain ⟨more, htrim⟩ : ∃ more, Text.trimEnd (· == '\r')
      (Text.lastLine before ++ c :: rest.takeWhile (· != '\n'))
        = Text.lastLine before ++ c :: more := by
    apply Text.trimEnd_append_cons
    exact beq_eq_false_iff_ne.2 hreturn
  obtain ⟨hindent, shownRest, hshown⟩ :=
    exists_shown_append_cons hblank (Text.lastLine before) more
  have hline := Text.lineAt?_endOf h
  rw [List.takeWhile_cons_of_pos (by simpa using hnewline), htrim] at hline
  refine ⟨_, hline, ?_, ?_⟩
  · rw [String.toList_ofList, Position.column_endOf]
    omega
  · rw [String.toList_ofList, caret_markerRow, getElem?_sourceRow, hshown,
      Position.column_endOf, Nat.add_sub_cancel_left, ← List.length_drop,
      List.getElem?_append_right (Nat.le_refl _), Nat.sub_self]
    rfl

/-- At the end of a text, the caret stands past the row. -/
theorem exists_line_atEnd (source : String) :
    ∃ line,
      Text.lineAt? source (Position.endOf source.toList).line = some line
        ∧ (indent line.toList).length + 1
            ≤ (Position.endOf source.toList).column
        ∧ (sourceRow (Position.endOf source.toList).line
            line.toList).toList.length
          ≤ caret (markerRow (.endOf source.toList) line.toList) := by
  have hline :=
    Text.lineAt?_endOf (List.append_nil source.toList).symm
  rw [List.takeWhile_nil, List.append_nil] at hline
  generalize hlast : Text.trimEnd (· == '\r')
    (Text.lastLine source.toList) = line at hline
  have hlength : line.length ≤ (Text.lastLine source.toList).length := by
    rw [← hlast]
    exact Text.length_trimEnd_le _ _
  have hindent : (indent line).length ≤ line.length :=
    (List.takeWhile_prefix _).length_le
  have hshown := length_shown_le line
  refine ⟨_, hline, ?_, ?_⟩
  · rw [String.toList_ofList, Position.column_endOf]
    omega
  · rw [String.toList_ofList, caret_markerRow, length_sourceRow,
      Position.column_endOf]
    omega

/-- What stands at an index of the row for an error: the first character
of the token at which the error shows, or nothing any more, if it shows at
the end of the source. -/
inductive PointsAt (source : String) (error : SyntaxError) (row : String)
    (index : Nat) : Prop
  | token {before after : List Segment} {segment : Segment} {kind : Kind}
    {value cs : List Char} {c : Char}
    (hsplit : Segment.cutAll source.toList = before ++ segment :: after)
    (hreading : segment.reading? = some (kind, value))
    (hposition : error.position = .endOf (Segment.texts before))
    (hlocation : error.location = .lexeme (String.ofList value))
    (htext : segment.text = c :: cs)
    (hrow : row.toList[index]? = some c) :
    PointsAt source error row index
  | atEnd (hposition : error.position = .endOf source.toList)
    (hlocation : error.location = .atEnd)
    (hrow : row.toList.length ≤ index) :
    PointsAt source error row index

end Excerpt

open Excerpt

/-- The excerpt for an error in a text shows the line on which the error
is, of which the indent does not reach the error. If the marker fits, the
one caret in its row stands under the first character of the token at
which the error shows, or past the row at the end of the text; if it does
not fit, the excerpt is broken off after the row. -/
theorem pointsAt_of_parseText {source : String} {limit : Nat}
    {error : SyntaxError} (h : parseText source limit = .error error)
    (file : String) :
    ∃ line, Text.lineAt? source error.position.line = some line
      ∧ (indent line.toList).length + 1 ≤ error.position.column
      ∧ ofError error source file
          = (if error.position.column - 1 - (indent line.toList).length + 1
              ≤ 65535 then
            .complete (header error file
              ++ sourceRow error.position.line line.toList ++ "\n"
              ++ markerRow error.position line.toList ++ "\n")
          else .brokenOff (header error file
            ++ sourceRow error.position.line line.toList ++ "\n"))
      ∧ (markerRow error.position line.toList).toList.count '^' = 1
      ∧ PointsAt source error (sourceRow error.position.line line.toList)
          (caret (markerRow error.position line.toList)) := by
  obtain ⟨calls, herror⟩ := exists_atToken_of_parseText h
  rcases Scanner.next_afterCalls_cases source calls with
    ⟨before, segment, after, kind, value, hsplit, hreading, htoken⟩ | htoken
  · rw [htoken] at herror
    have hcut := Segment.isCut_of_cutAll hsplit
    obtain ⟨c, cs, htext, hblank⟩ := hcut.exists_head hreading
    have hsource : source.toList
        = Segment.texts before ++ c :: (cs ++ Segment.texts after) := by
      have hwhole := Segment.texts_cutAll source.toList
      rw [hsplit, Segment.texts, List.flatMap_append, List.flatMap_cons,
        htext] at hwhole
      exact hwhole.symm
    have hposition : error.position = .endOf (Segment.texts before) := by
      rw [herror]
      rfl
    have hlocation : error.location = .lexeme (String.ofList value) := by
      rw [herror]
      exact if_neg (hcut.reading hreading).1
    obtain ⟨line, hline, hindent, hrow⟩ :=
      exists_line_of_append hsource hblank
    rw [← hposition] at hline hindent hrow
    exact ⟨line, hline, hindent, ofError_eq hline file,
      count_caret_markerRow _ _,
      .token hsplit hreading hposition hlocation htext hrow⟩
  · rw [htoken] at herror
    have hposition : error.position = .endOf source.toList := by
      rw [herror]
      rfl
    have hlocation : error.location = .atEnd := by
      rw [herror]
      rfl
    obtain ⟨line, hline, hindent, hrow⟩ := exists_line_atEnd source
    rw [← hposition] at hline hindent hrow
    exact ⟨line, hline, hindent, ofError_eq hline file,
      count_caret_markerRow _ _, .atEnd hposition hlocation hrow⟩

/-- A letter that opens no word, after an indent of a tab and a blank and
before a carriage return, has the caret under it. -/
theorem pointsAt_of_parseText_letter :
    ∃ source error line, parseText source 0 = .error error
      ∧ Text.lineAt? source error.position.line = some line
      ∧ (indent line.toList).length + 1 ≤ error.position.column
      ∧ PointsAt source error (sourceRow error.position.line line.toList)
          (caret (markerRow error.position line.toList)) := by
  let source := "class A \x7b\r\n\t é;\r\n\x7d"
  have hfails : (parseText source 0).isOk = false := by decide +kernel
  cases h : parseText source 0 with
  | ok parsed =>
    rw [h] at hfails
    cases hfails
  | error error =>
    obtain ⟨line, hline, hindent, -, -, hpoints⟩ :=
      pointsAt_of_parseText h "A.jack"
    exact ⟨source, error, line, h, hline, hindent, hpoints⟩

end JackSyntax
