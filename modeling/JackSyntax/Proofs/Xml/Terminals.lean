/-
The terminals of a class, line by line. The trace of a class and the
listing of its tokens are written apart, the one with the rules around
the terminals and the other from a scan of the whole text. They have the
same lines all the same, once the lines of the rules are dropped and the
indent is taken off (`lines_tokensXml_of_parse`).

Three things could make the lines differ. A value could break its line;
no value in a text has a newline (`TokenSource.isOneLine_text`). The line
of a terminal could be taken for that of a rule; it has a blank, which no
tag has. And taking off the indent could take more; a terminal begins
with a bracket, so the blanks of a value are safe behind it.
-/
import JackSyntax.Proofs.Parse.Sequence
import JackSyntax.Proofs.Text.Lines
import JackSyntax.Proofs.Xml.Faithful

namespace JackSyntax

namespace Text

-- =============================================================== lines

/-- The line without the carriage return that belongs to its end. -/
def stripReturn (line : List Char) : List Char :=
  if line.getLast? = some '\r' then line.dropLast else line

/-- The lines of a text, without their ends. An end is a newline, with a
carriage return before it if there is one. The last line may have no end;
then it is not empty. -/
def lines (text : String) : List String :=
  let pieces := split '\n' text.toList
  let ended := pieces.dropLast.map stripReturn
  let last := pieces.getLast?.toList.filter (!·.isEmpty)
  (ended ++ last).map String.ofList

/-- The text before its first character that is no space. -/
def unindent (line : String) : String :=
  String.ofList (line.toList.dropWhile (· == ' '))

/-- The text can be a line: nothing in it ends one, or would be taken for
a part of its end. -/
structure IsLine (line : String) : Prop where
  whole : '\n' ∉ line.toList
  ended : line.toList.getLast? ≠ some '\r'

/-- A line at the front of a text is the first of its lines. -/
theorem lines_append {line : String} (h : IsLine line) (rest : String) :
    lines (line ++ "\n" ++ rest) = line :: lines rest := by
  have htext : (line ++ "\n" ++ rest).toList
      = line.toList ++ '\n' :: rest.toList := by simp
  have hsplit := split_append_cons '\n' line.toList rest.toList
  rw [split_of_not_mem h.whole] at hsplit
  have hrest := split_ne_nil '\n' rest.toList
  have hkept : stripReturn line.toList = line.toList := if_neg h.ended
  unfold lines
  rw [htext, hsplit]
  simp only [List.singleton_append]
  rw [List.dropLast_cons_of_ne_nil hrest, List.getLast?_cons_of_ne_nil hrest,
    List.map_cons, hkept, List.cons_append, List.map_cons,
    String.ofList_toList]

/-- Lines that are set one after the other are the lines of the text. -/
theorem lines_join {texts : List String} (h : ∀ text ∈ texts, IsLine text) :
    lines (String.join (texts.map (· ++ "\n"))) = texts := by
  induction texts with
  | nil => rfl
  | cons text texts ih =>
    obtain ⟨hfirst, hothers⟩ := List.forall_mem_cons.1 h
    rw [List.map_cons, String.join_cons, lines_append hfirst, ih hothers]

/-- A carriage return is part of a line end only before a newline. -/
example : lines "a\r\n\nb\r" = ["a", "", "b\r"] := by decide +kernel

/-- Escaping breaks no line. -/
theorem newline_not_mem_escape {text : String} (h : '\n' ∉ text.toList) :
    '\n' ∉ (escape text).toList := by
  rw [escape, String.toList_ofList, List.mem_flatMap]
  intro hmem
  obtain ⟨c, hc, hentity⟩ := hmem
  unfold entity at hentity
  split at hentity
  · simp at hentity
  · simp at hentity
  · simp at hentity
  · simp at hentity
  · rw [List.mem_singleton] at hentity
    exact h (hentity ▸ hc)

end Text

-- =============================================================== marks

/-- No value in the mark has a newline. -/
def Mark.IsOneLine : Mark → Prop
  | .element _ value => '\n' ∉ value.toList
  | .opening _ | .closing _ => True

/-- A mark stands in brackets. -/
theorem Mark.exists_text_eq (mark : Mark) :
    ∃ inside, mark.text.toList = '<' :: inside ++ ['>'] := by
  cases mark with
  | opening name => exact ⟨name.toList, by simp [text]⟩
  | closing name => exact ⟨'/' :: name.toList, by simp [text]⟩
  | element name value =>
    refine ⟨name.toList ++ '>' :: ' ' :: (Text.escape value).toList
      ++ ' ' :: '<' :: '/' :: name.toList, ?_⟩
    simp [text]

/-- The mark with its indent, as a line. -/
def Mark.line (mark : Mark) (indent : Nat) : String :=
  String.ofList (List.replicate indent ' ') ++ mark.text

/-- A mark on one line is a line, whatever its indent is. -/
theorem Mark.isLine_line {mark : Mark} (hnamed : mark.IsNamed)
    (h : mark.IsOneLine) (indent : Nat) :
    Text.IsLine (mark.line indent) := by
  obtain ⟨-, hname, -⟩ := hnamed
  obtain ⟨inside, hinside⟩ := mark.exists_text_eq
  constructor
  · cases mark with
    | opening name => simpa [line, text, Mark.name] using hname
    | closing name => simpa [line, text, Mark.name] using hname
    | element name value =>
      have hvalue := Text.newline_not_mem_escape h
      simpa [line, text, Mark.name, hvalue] using hname
  · rw [line, String.toList_append, hinside, ← List.append_assoc,
      List.getLast?_concat]
    decide

/-- Taking off the indent leaves the mark. -/
theorem Mark.unindent_line (mark : Mark) (indent : Nat) :
    Text.unindent (mark.line indent) = mark.text := by
  obtain ⟨inside, hinside⟩ := mark.exists_text_eq
  rw [Text.unindent, line, String.toList_append, String.toList_ofList,
    hinside, List.cons_append, dropWhile_replicate_append (by decide),
    ← List.cons_append, ← hinside, String.ofList_toList]

-- ========================================================== rule lines

/-- But for the indent, the line is one of the two tags of a rule. -/
def isRuleLine (line : String) : Bool :=
  Rule.all.any fun rule => Text.unindent line = (Mark.opening rule.tag).text
    || Text.unindent line = (Mark.closing rule.tag).text

/-- The lines that are not those of rules, without their indent. -/
def terminalLines (xml : String) : List String :=
  ((Text.lines xml).filter (!isRuleLine ·)).map Text.unindent

/-- The lines of the rules are known by their tags, and no terminal looks
like one: it has a blank after its first tag. -/
theorem isRuleLine_entry (entry : Entry) (indent : Nat) :
    isRuleLine (entry.mark.line indent) = entry.token?.isNone := by
  have hall : ∀ rule : Rule, rule ∈ Rule.all := by
    intro rule
    cases rule <;> decide
  rw [isRuleLine, Mark.unindent_line]
  cases entry with
  | enter rule =>
    refine List.any_eq_true.2 ⟨rule, hall rule, ?_⟩
    simp [Entry.mark]
  | exit rule =>
    refine List.any_eq_true.2 ⟨rule, hall rule, ?_⟩
    simp [Entry.mark]
  | terminal token =>
    refine List.any_eq_false.2 fun rule _ => ?_
    have hblank : ' ' ∈ (Entry.terminal token).mark.text.toList := by
      simp [Entry.mark, Token.mark, Mark.text]
    have hopening : ∀ rule : Rule,
        ' ' ∉ (Mark.opening rule.tag).text.toList := by
      intro rule
      cases rule <;> decide
    have hclosing : ∀ rule : Rule,
        ' ' ∉ (Mark.closing rule.tag).text.toList := by
      intro rule
      cases rule <;> decide
    simp only [Bool.or_eq_true, decide_eq_true_eq, not_or]
    constructor
    · intro heq
      exact hopening rule (heq ▸ hblank)
    · intro heq
      exact hclosing rule (heq ▸ hblank)

-- ========================================================== renderings

/-- If no terminal has a newline in its value, all entries are on one
line. -/
theorem isOneLine_mark {entries : List Entry}
    (h : ∀ token ∈ entries.filterMap Entry.token?, token.IsOneLine) :
    ∀ entry ∈ entries, entry.mark.IsOneLine := by
  intro entry hentry
  cases entry with
  | enter rule => trivial
  | exit rule => trivial
  | terminal token =>
    exact h token (List.mem_filterMap.2 ⟨_, hentry, rfl⟩)

/-- The first line of a trace is the mark of its first entry. -/
theorem exists_lines_xmlLines_cons {entry : Entry}
    (h : entry.mark.IsOneLine) (depth : Nat) (entries : List Entry) :
    ∃ indent deeper,
      Text.lines (String.join (xmlLines depth (entry :: entries)))
        = entry.mark.line indent
          :: Text.lines (String.join (xmlLines deeper entries)) := by
  obtain ⟨indent, deeper, hline⟩ := exists_xmlLines_cons depth entry entries
  have hmark := entry.mark.isLine_line entry.isNamed_mark h (2 * indent)
  refine ⟨2 * indent, deeper, ?_⟩
  rw [hline, String.join_cons]
  exact Text.lines_append hmark _

/-- The terminals of a trace are its lines, in order, without those of the
rules, if all entries are on one line. -/
theorem terminalLines_xmlLines {entries : List Entry}
    (h : ∀ entry ∈ entries, entry.mark.IsOneLine) (depth : Nat) :
    terminalLines (String.join (xmlLines depth entries))
      = (entries.filterMap Entry.token?).map Token.xml := by
  induction entries generalizing depth with
  | nil => rfl
  | cons entry entries ih =>
    obtain ⟨hentry, hothers⟩ := List.forall_mem_cons.1 h
    obtain ⟨indent, deeper, hlines⟩ :=
      exists_lines_xmlLines_cons hentry depth entries
    have hrest := ih hothers deeper
    rw [terminalLines] at hrest
    rw [terminalLines, hlines, List.filter_cons, isRuleLine_entry]
    -- the line is dropped or kept as the entry is a rule or a terminal
    cases entry with
    | enter rule => exact hrest
    | exit rule => exact hrest
    | terminal token =>
      have htoken : (Entry.terminal token).token? = some token := rfl
      rw [List.filterMap_cons_some htoken, List.map_cons, ← hrest]
      exact congrArg (· :: _) (Mark.unindent_line _ _)

/-- The lines of a listing are those of its tokens between two tags. -/
theorem lines_tokensXml {tokens : List Token}
    (h : ∀ token ∈ tokens, token.IsOneLine) :
    Text.lines (tokensXml tokens) = "<tokens>"
      :: ((tokens.filter (·.kind != .eof)).map Token.xml ++ ["</tokens>"]) := by
  have hjoin : tokensXml tokens = String.join (("<tokens>"
      :: ((tokens.filter (·.kind != .eof)).map Token.xml
        ++ ["</tokens>"])).map (· ++ "\n")) := by
    rw [tokensXml, List.map_cons, List.map_append, List.map_map,
      String.join_cons, String.join_append]
    rfl
  rw [hjoin, Text.lines_join]
  intro line hline
  rcases List.mem_cons.1 hline with heq | hmore
  · rw [heq]
    exact (Mark.opening "tokens").isLine_line (by decide) trivial 0
  · rcases List.mem_append.1 hmore with hshown | hlast
    · obtain ⟨token, htoken, rfl⟩ := List.mem_map.1 hshown
      exact token.mark.isLine_line token.isNamed_mark
        (h token (List.mem_of_mem_filter htoken)) 0
    · rw [List.mem_singleton.1 hlast]
      exact (Mark.closing "tokens").isLine_line (by decide) trivial 0

-- ======================================================= whole classes

/-- The trace of a class that is parsed from a text and the listing of the
tokens of that text have the same terminals: the lines between the tags of
the listing are those of the trace, in order, without those of the rules
and without their indent. -/
theorem lines_tokensXml_of_parse {source : String} {limit : Nat}
    {parsed : ParsedClass} (h : parseText source limit = .ok parsed) :
    Text.lines (tokensXml (tokenize source))
      = "<tokens>" :: (terminalLines parsed.trace.xml ++ ["</tokens>"]) := by
  obtain ⟨-, -, -, -, htokens⟩ := exists_entries_of_parse h
  have honeLine := TokenSource.isOneLine_text (.ofText source)
  have htrace : terminalLines parsed.trace.xml
      = (TokenSource.ofText source).tokens.map Token.xml := by
    rw [Trace.xml, terminalLines_xmlLines, htokens]
    apply isOneLine_mark
    rw [htokens]
    exact honeLine
  have hall : ∀ token ∈ tokenize source, token.IsOneLine := by
    rw [tokenize_eq]
    intro token htoken
    rcases List.mem_append.1 htoken with hplain | hend
    · exact honeLine token hplain
    · rw [List.mem_singleton.1 hend]
      exact List.not_mem_nil
  have hshown : (tokenize source).filter (·.kind != .eof)
      = (TokenSource.ofText source).tokens := by
    rw [tokenize_eq, List.filter_append, List.filter_eq_self.2]
    · exact List.append_nil _
    · intro token htoken
      exact bne_iff_ne.2 (TokenSource.ne_eof_of_mem_tokens htoken)
  rw [lines_tokensXml hall, hshown, htrace]

/-- A string may have blanks at its ends and look like the line of a
rule. -/
theorem lines_tokensXml_of_parse_string :
    ∃ parsed,
      parseText "class A\x7bmethod int f()\x7breturn \" <term> \";\x7d\x7d"
          3 = .ok parsed
        ∧ Text.lines (tokensXml (tokenize
            "class A\x7bmethod int f()\x7breturn \" <term> \";\x7d\x7d"))
          = "<tokens>" :: (terminalLines parsed.trace.xml
            ++ ["</tokens>"]) := by
  have hok : (parseText
      "class A\x7bmethod int f()\x7breturn \" <term> \";\x7d\x7d"
      3).isOk = true := by decide +kernel
  cases h : parseText
      "class A\x7bmethod int f()\x7breturn \" <term> \";\x7d\x7d" 3 with
  | error error =>
    rw [h] at hok
    cases hok
  | ok parsed => exact ⟨parsed, rfl, lines_tokensXml_of_parse h⟩

end JackSyntax
