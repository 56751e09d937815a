/-
The XML of a class tells which tokens it was parsed from. The trace of a
class has the tokens as its terminals and, as the grammar is not
ambiguous, no rules that their kinds do not fix
(`alike_entries_of_leaves`). The tag and the value of a terminal tell its
kind, as long as keywords and symbols are spelled as they should be
(`Kind.ofTerminal?_xmlTag`), and in a text they are.

So two classes have the same XML just if they have the same tokens, up to
the positions (`xml_eq_iff_of_parse`).
-/
import JackSyntax.Proofs.Parse.Kinds
import JackSyntax.Proofs.Scan.Determinacy
import JackSyntax.Proofs.Scan.Tokens
import JackSyntax.Proofs.Xml.Readback

namespace JackSyntax

-- ========================================================== terminals

/-- The kind of a terminal, by its tag and, where kinds share one, by its
value. -/
def Kind.ofTerminal? (tag value : String) : Option Kind :=
  match tag with
  | "keyword" => ofReserved? value
  | "symbol" => value.toList.head?.bind ofSymbol?
  | "integerConstant" => some .number
  | "stringConstant" => some .string
  | "identifier" => some .identifier
  | _ => none

/-- The kind of a token in a class can be told, if the token is spelled
as its kind is. -/
theorem Kind.ofTerminal?_xmlTag {token : Token} (h : token.IsSpelled)
    (heof : token.kind ≠ .eof) (hillegal : token.kind ≠ .illegal) :
    ofTerminal? token.kind.xmlTag token.value = some token.kind := by
  have hword : ∀ kind ∈ keywords, kind.xmlTag = "keyword" := by decide
  have hsign : ∀ kind ∈ symbols, kind.xmlTag = "symbol" := by decide
  have hcases : ∀ kind : Kind, kind ∈ keywords ∨ kind ∈ symbols
      ∨ kind ∈ [.eof, .illegal, .number, .string, .identifier] := by
    intro kind
    cases kind <;> decide
  rcases hcases token.kind with hkind | hkind | hkind
  · obtain ⟨spelling, hspelling, hread⟩ :=
      Option.bind_eq_some_iff.1 (ofReserved?_spelling _ hkind)
    rw [hword _ hkind, h spelling hspelling]
    exact hread
  · obtain ⟨spelling, hspelling, hread⟩ :=
      Option.bind_eq_some_iff.1 (ofSymbol?_spelling _ hkind)
    rw [hsign _ hkind, h spelling hspelling]
    exact hread
  · simp only [List.mem_cons, List.not_mem_nil, or_false, heof, hillegal,
      false_or] at hkind
    rcases hkind with hkind | hkind | hkind <;> rw [hkind] <;> rfl

/-- The lexeme of a terminal that XML tells of. -/
def XmlItem.lexeme? : XmlItem → Option Lexeme
  | .terminal tag value =>
    (Kind.ofTerminal? tag value).map fun kind => ⟨kind, value⟩
  | _ => none

/-- What XML tells of a trace has the lexemes of its tokens, if they are
ones of a class that are spelled as their kinds are. -/
theorem filterMap_lexeme?_xmlItem {entries : List Entry}
    (hspelled : ∀ token ∈ entries.filterMap Entry.token?, token.IsSpelled)
    (hplain : ∀ token ∈ entries.filterMap Entry.token?,
      token.kind ≠ .eof ∧ token.kind ≠ .illegal) :
    (entries.map Entry.xmlItem).filterMap XmlItem.lexeme?
      = (entries.filterMap Entry.token?).map Token.lexeme := by
  induction entries with
  | nil => rfl
  | cons entry entries ih =>
    cases entry with
    | enter rule => exact ih hspelled hplain
    | exit rule => exact ih hspelled hplain
    | terminal token =>
      obtain ⟨hfirst, hothers⟩ := List.forall_mem_cons.1 hspelled
      obtain ⟨⟨heof, hillegal⟩, hplain⟩ := List.forall_mem_cons.1 hplain
      have hkind := Kind.ofTerminal?_xmlTag hfirst heof hillegal
      have hlexeme : (Entry.terminal token).xmlItem.lexeme?
          = some token.lexeme := by
        rw [Entry.xmlItem, Token.xmlItem, XmlItem.lexeme?, hkind]
        rfl
      rw [List.map_cons, List.filterMap_cons_some hlexeme,
        ih hothers hplain]
      rfl

/-- Entries that are alike and have the same lexemes are read alike. -/
theorem map_xmlItem_of_alike {entries entries' : List Entry}
    (h : List.Forall₂ Entry.Alike entries entries')
    (hlexemes : (entries.filterMap Entry.token?).map Token.lexeme
      = (entries'.filterMap Entry.token?).map Token.lexeme) :
    entries.map Entry.xmlItem = entries'.map Entry.xmlItem := by
  induction h with
  | nil => rfl
  | cons hentry _ ih =>
    cases hentry with
    | enter rule => rw [List.map_cons, List.map_cons, ih hlexemes]
    | exit rule => rw [List.map_cons, List.map_cons, ih hlexemes]
    | terminal hkind =>
      obtain ⟨hfirst, hothers⟩ := List.cons.inj hlexemes
      obtain ⟨-, hvalue⟩ := Lexeme.mk.inj hfirst
      rw [List.map_cons, List.map_cons, ih hothers, Entry.xmlItem,
        Entry.xmlItem, Token.xmlItem, Token.xmlItem, hkind, hvalue]

-- ========================================================== whole classes

/-- What is parsed has all tokens of the source as its terminals, and a
derivation of which it is the trace. -/
theorem exists_entries_of_parse {source : TokenSource} {limit : Nat}
    {parsed : ParsedClass} (h : parse source limit = .ok parsed) :
    ∃ forest, IsClass forest ∧ parsed.trace.toList = forest.entries
      ∧ forest.leaves = source.tokens
      ∧ parsed.trace.toList.filterMap Entry.token? = source.tokens := by
  obtain ⟨tokens, after, hruns, heof, hparsed⟩ := exists_runs_of_parse h
  obtain ⟨forest, notes, hclass, rfl, hpasses, -⟩ := passes_class hruns
  have hplain : ∀ token ∈ forest.leaves, token.kind ≠ .eof :=
    fun token htoken => (hclass.isPlain rfl token htoken).1
  have hleaves := hpasses.leaves_eq_tokens hplain heof
  have haccepted : after.accepted = _ := hruns.accepted_eq
  refine ⟨forest, hclass, ?_, hleaves, ?_⟩
  · rw [hparsed, hpasses.trace]
    rfl
  · rw [hparsed, ← hleaves]
    exact haccepted

/-- Classes that are parsed from tokens spelled as their kinds are have
the same XML just if the tokens have the same kinds and values in the same
order. -/
theorem xml_eq_iff_of_parse {source source' : TokenSource}
    {limit limit' : Nat} {parsed parsed' : ParsedClass}
    (hspelled : ∀ token ∈ source.tokens, token.IsSpelled)
    (hspelled' : ∀ token ∈ source'.tokens, token.IsSpelled)
    (h : parse source limit = .ok parsed)
    (h' : parse source' limit' = .ok parsed') :
    parsed.trace.xml = parsed'.trace.xml
      ↔ source.tokens.map Token.lexeme = source'.tokens.map Token.lexeme := by
  obtain ⟨forest, hclass, htrace, hleaves, htokens⟩ :=
    exists_entries_of_parse h
  obtain ⟨forest', hclass', htrace', hleaves', htokens'⟩ :=
    exists_entries_of_parse h'
  rw [xml_eq_iff]
  constructor
  · intro hitems
    have hread := congrArg (List.filterMap XmlItem.lexeme?) hitems
    rwa [filterMap_lexeme?_xmlItem, filterMap_lexeme?_xmlItem, htokens,
      htokens'] at hread
    · rwa [htokens']
    · rw [htokens', ← hleaves']
      exact hclass'.isPlain rfl
    · rwa [htokens]
    · rw [htokens, ← hleaves]
      exact hclass.isPlain rfl
  · intro hlexemes
    have hkinds : forest.leaves.map Token.kind
        = forest'.leaves.map Token.kind := by
      have hkinds := congrArg (List.map Lexeme.kind) hlexemes
      rw [List.map_map, List.map_map] at hkinds
      rw [hleaves, hleaves']
      exact hkinds
    have halike := alike_entries_of_leaves hclass hclass' hkinds
    rw [← htrace, ← htrace'] at halike
    exact map_xmlItem_of_alike halike (by rwa [htokens, htokens'])

/-- XML loses nothing. The entries of every trace are read back from its
XML, and the tokens of every listing from the listing; and classes parsed
from texts, or from any other tokens spelled as their kinds are, have the
same XML just if their tokens have the same kinds and values in the same
order, whatever the limits were. -/
theorem readXml_faithful :
    (∀ trace : Trace, readXml trace.xml = trace.toList.map Entry.xmlItem)
      ∧ (∀ tokens : List Token, readXml (tokensXml tokens)
          = (tokens.filter (·.kind != .eof)).map Token.xmlItem)
      ∧ (∀ (source source' : String) (limit limit' : Nat)
          (parsed parsed' : ParsedClass),
          parseText source limit = .ok parsed →
          parseText source' limit' = .ok parsed' →
          (parsed.trace.xml = parsed'.trace.xml
            ↔ (tokenize source).map Token.lexeme
              = (tokenize source').map Token.lexeme))
      ∧ ∀ (source source' : TokenSource) (limit limit' : Nat)
          (parsed parsed' : ParsedClass),
          (∀ token ∈ source.tokens, token.IsSpelled) →
          (∀ token ∈ source'.tokens, token.IsSpelled) →
          parse source limit = .ok parsed →
          parse source' limit' = .ok parsed' →
          (parsed.trace.xml = parsed'.trace.xml
            ↔ source.tokens.map Token.lexeme
              = source'.tokens.map Token.lexeme) := by
  refine ⟨readXml_trace, readXml_tokensXml, ?_, ?_⟩
  · intro source source' limit limit' parsed parsed' h h'
    have hend : ∀ text : String, (tokenize text).map Token.lexeme
        = (TokenSource.ofText text).tokens.map Token.lexeme
          ++ [⟨.eof, ""⟩] := by
      intro text
      rw [tokenize_eq, List.map_append]
      rfl
    rw [hend, hend, List.append_cancel_right_eq]
    exact xml_eq_iff_of_parse (TokenSource.isSpelled_text _)
      (TokenSource.isSpelled_text _) h h'
  · intro source source' limit limit' parsed parsed' hspelled hspelled' h h'
    exact xml_eq_iff_of_parse hspelled hspelled' h h'

/-- A comment and line ends between the tokens do not show in the XML. -/
theorem readXml_faithful_comment :
    ∃ parsed parsed',
      parseText "class A \x7bfield int x;\x7d" 0 = .ok parsed
        ∧ parseText "class A /* a */ \x7b\nfield int x;\n\x7d" 7
            = .ok parsed'
        ∧ parsed.trace.xml = parsed'.trace.xml := by
  have hok : (parseText "class A \x7bfield int x;\x7d" 0).isOk
      = true := by decide +kernel
  have hok' : (parseText "class A /* a */ \x7b\nfield int x;\n\x7d"
      7).isOk = true := by decide +kernel
  have hlexemes : (tokenize "class A \x7bfield int x;\x7d").map Token.lexeme
      = (tokenize "class A /* a */ \x7b\nfield int x;\n\x7d").map
        Token.lexeme := by decide +kernel
  cases h : parseText "class A \x7bfield int x;\x7d" 0 with
  | error error =>
    rw [h] at hok
    cases hok
  | ok parsed =>
    cases h' : parseText "class A /* a */ \x7b\nfield int x;\n\x7d" 7 with
    | error error =>
      rw [h'] at hok'
      cases hok'
    | ok parsed' =>
      obtain ⟨-, -, hsame, -⟩ := readXml_faithful
      exact ⟨parsed, parsed', rfl, rfl,
        (hsame _ _ 0 7 parsed parsed' h h').2 hlexemes⟩

end JackSyntax
