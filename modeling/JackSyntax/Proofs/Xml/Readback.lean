/-
The renderings read back. Each entry of a trace is one mark of its XML, so
the entries are the marks, with the rules for the names of the tags
(`readXml_trace`). It does not matter how they are nested, for the indent
of a line is not read. The same holds for a listing of tokens, where the
tags around the list name no rule (`readXml_tokensXml`).

So two traces have the same XML just if they are read alike
(`xml_eq_iff`), and all that is lost are the positions of the tokens and
what kinds of tokens have in common in their tags.
-/
import JackSyntax.Proofs.Xml.Marks

namespace JackSyntax

-- ====================================================== what is read

/-- What XML says of one entry: which rule starts or ends, or the tag and
the value of a terminal. -/
inductive XmlItem
  | enter (rule : Rule)
  | exit (rule : Rule)
  | terminal (tag value : String)
  deriving DecidableEq, Repr

def Token.xmlItem (token : Token) : XmlItem :=
  .terminal token.kind.xmlTag token.value

def Entry.xmlItem : Entry → XmlItem
  | .enter rule => .enter rule
  | .exit rule => .exit rule
  | .terminal token => token.xmlItem

/-- What a mark says. An element without a value must be named as a
rule. -/
def Mark.item? : Mark → Option XmlItem
  | .opening name => (Rule.ofTag? name).map .enter
  | .closing name => (Rule.ofTag? name).map .exit
  | .element name value => some (.terminal name value)

/-- What a text of XML says, mark by mark. -/
def readXml (xml : String) : List XmlItem :=
  (marks xml.toList).filterMap Mark.item?

-- ================================================ the marks of entries

/-- The mark of a token in either rendering. -/
def Token.mark (token : Token) : Mark :=
  .element token.kind.xmlTag token.value

def Entry.mark : Entry → Mark
  | .enter rule => .opening rule.tag
  | .exit rule => .closing rule.tag
  | .terminal token => token.mark

theorem Token.isNamed_mark (token : Token) : token.mark.IsNamed := by
  have hnamed : ∀ kind : Kind, (Mark.element kind.xmlTag "").IsNamed := by
    intro kind
    cases kind <;> decide
  exact hnamed token.kind

theorem Entry.isNamed_mark (entry : Entry) : entry.mark.IsNamed := by
  have hnamed : ∀ rule : Rule, (Mark.opening rule.tag).IsNamed := by
    intro rule
    cases rule <;> decide
  cases entry with
  | enter rule => exact hnamed rule
  | exit rule => exact hnamed rule
  | terminal token => exact token.isNamed_mark

theorem Entry.item?_mark (entry : Entry) :
    entry.mark.item? = some entry.xmlItem := by
  cases entry with
  | enter rule => rw [mark, Mark.item?, Rule.ofTag?_tag]; rfl
  | exit rule => rw [mark, Mark.item?, Rule.ofTag?_tag]; rfl
  | terminal token => rfl

-- ========================================================== renderings

theorem marks_nil : marks [] = [] := by
  rw [marks]
  rfl

/-- The mark of a line is read whatever the indent is. -/
theorem marks_xmlLine_append {mark : Mark} (h : mark.IsNamed)
    (depth : Nat) (rest : List Char) :
    marks ((xmlLine depth mark.text).toList ++ rest) = mark :: marks rest := by
  have hread := marks_append h (2 * depth) rest
  simpa [xmlLine] using hread

/-- The first line is the mark of the first entry, and the other lines are
those of the other entries. -/
theorem exists_xmlLines_cons (depth : Nat) (entry : Entry)
    (entries : List Entry) :
    ∃ indent deeper, xmlLines depth (entry :: entries)
      = xmlLine indent entry.mark.text :: xmlLines deeper entries := by
  cases entry with
  | enter rule => exact ⟨_, _, rfl⟩
  | exit rule => exact ⟨_, _, rfl⟩
  | terminal token => exact ⟨_, _, rfl⟩

/-- Each line of a trace is the mark of its entry. -/
theorem marks_xmlLines_append (depth : Nat) (entries : List Entry)
    (rest : List Char) :
    marks ((String.join (xmlLines depth entries)).toList ++ rest)
      = entries.map Entry.mark ++ marks rest := by
  induction entries generalizing depth with
  | nil => rfl
  | cons entry entries ih =>
    -- the mark of a line and the lines after it are all that matters
    obtain ⟨indent, deeper, hline⟩ := exists_xmlLines_cons depth entry entries
    rw [hline, String.join_cons, String.toList_append, List.append_assoc,
      marks_xmlLine_append entry.isNamed_mark, ih]
    rfl

theorem filterMap_item?_mark (entries : List Entry) :
    (entries.map Entry.mark).filterMap Mark.item?
      = entries.map Entry.xmlItem := by
  induction entries with
  | nil => rfl
  | cons entry entries ih =>
    rw [List.map_cons, List.filterMap_cons_some entry.item?_mark, ih]
    rfl

/-- A trace is read back from its XML, whether it is well nested or not:
the rules in the order of their entries, and each terminal with its tag
and its value. -/
theorem readXml_trace (trace : Trace) :
    readXml trace.xml = trace.toList.map Entry.xmlItem := by
  have hmarks := marks_xmlLines_append 0 trace.toList []
  rw [List.append_nil, marks_nil, List.append_nil] at hmarks
  rw [readXml, Trace.xml, hmarks, filterMap_item?_mark]

/-- A list of tokens is set like the terminals of a trace that are outside
all rules, between the two tags. -/
theorem tokensXml_eq (tokens : List Token) :
    tokensXml tokens = xmlLine 0 (Mark.opening "tokens").text
      ++ String.join (xmlLines 0
        ((tokens.filter (·.kind != .eof)).map Entry.terminal))
      ++ xmlLine 0 (Mark.closing "tokens").text := by
  have hlines : ∀ shown : List Token,
      xmlLines 0 (shown.map Entry.terminal)
        = shown.map fun token => token.xml ++ "\n" := by
    intro shown
    induction shown with
    | nil => rfl
    | cons token shown ih => rw [List.map_cons, xmlLines, ih]; rfl
  rw [tokensXml, hlines]
  rfl

/-- A list of tokens is read back from its XML, each with its tag and its
value, the ends of input apart. -/
theorem readXml_tokensXml (tokens : List Token) :
    readXml (tokensXml tokens)
      = (tokens.filter (·.kind != .eof)).map Token.xmlItem := by
  let entries := (tokens.filter (·.kind != .eof)).map Entry.terminal
  have hclosing : marks (xmlLine 0 (Mark.closing "tokens").text).toList
      = [.closing "tokens"] := by
    have hmark := marks_xmlLine_append
      (by decide : (Mark.closing "tokens").IsNamed) 0 []
    rwa [List.append_nil, marks_nil] at hmark
  have hmarks : marks (tokensXml tokens).toList = .opening "tokens"
      :: (entries.map Entry.mark ++ [.closing "tokens"]) := by
    rw [tokensXml_eq, String.append_assoc, String.toList_append,
      marks_xmlLine_append (by decide : (Mark.opening "tokens").IsNamed),
      String.toList_append, marks_xmlLines_append, hclosing]
  have htag : Rule.ofTag? "tokens" = none := by decide
  rw [readXml, hmarks, List.filterMap_cons_none (by rw [Mark.item?, htag]; rfl),
    List.filterMap_append, filterMap_item?_mark,
    List.filterMap_cons_none (by rw [Mark.item?, htag]; rfl)]
  simp only [entries, List.map_map, List.filterMap_nil, List.append_nil]
  rfl

-- ====================================================== equal renderings

/-- Entries that are read alike are written alike. -/
theorem xmlLines_congr {entries entries' : List Entry}
    (h : entries.map Entry.xmlItem = entries'.map Entry.xmlItem)
    (depth : Nat) : xmlLines depth entries = xmlLines depth entries' := by
  induction entries generalizing entries' depth with
  | nil =>
    obtain rfl := List.map_eq_nil_iff.1 h.symm
    rfl
  | cons entry entries ih =>
    obtain ⟨entry', rest', rfl, hitem, hrest⟩ := List.map_eq_cons_iff.1 h.symm
    have hlines := fun deeper => ih hrest.symm deeper
    cases entry with
    | enter rule =>
      cases entry' <;> cases hitem
      rw [xmlLines, xmlLines, hlines]
    | exit rule =>
      cases entry' <;> cases hitem
      rw [xmlLines, xmlLines, hlines]
    | terminal token =>
      cases entry' with
      | terminal token' =>
        obtain ⟨htag, hvalue⟩ := XmlItem.terminal.inj hitem
        have hxml : token'.xml = token.xml := by
          rw [Token.xml, Token.xml, htag, hvalue]
        rw [xmlLines, xmlLines, hlines, hxml]
      | _ => cases hitem

/-- Traces have the same XML just if they have the same rules in the same
places and terminals with the same tags and values between them. -/
theorem xml_eq_iff (trace trace' : Trace) :
    trace.xml = trace'.xml
      ↔ trace.toList.map Entry.xmlItem = trace'.toList.map Entry.xmlItem := by
  constructor
  · intro h
    rw [← readXml_trace, ← readXml_trace, h]
  · intro h
    rw [Trace.xml, Trace.xml, xmlLines_congr h]

end JackSyntax
