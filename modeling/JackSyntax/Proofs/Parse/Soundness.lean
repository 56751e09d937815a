/-
What a run that succeeds has done, and what one that fails has not.

`Runs.passes` holds of any account of the parts that the bodies keep: a
run that succeeds has gone through a forest, and the trace, the notes and
the window have moved by that forest and nothing else. With the account
that parts leave what their phrases derive, the trace of a parsed class
is the trace of its one derivation (`exists_derivation_of_parse`).
-/
import JackSyntax.Grammar.Records
import JackSyntax.Parse.Class
import JackSyntax.Proofs.Parse.Bodies
import JackSyntax.Proofs.Parse.Window

namespace JackSyntax

variable {α : Type}

-- ===================================================== runs that succeed

namespace Recognizer

/-- A run that succeeds goes through a forest that the recognizer can
build, and leaves its trace and its notes. The account of the parts may
be any that their bodies keep. -/
theorem Runs.passes {account : Account}
    (hbody : ∀ owner part inside notes value,
      (body owner part).Builds account inside notes value →
      account owner part (part.wrap inside) notes value)
    {recognizer : Recognizer α} {parser after : Parser}
    {tokens : List Token} {outcome : Outcome α} {value : α}
    (h : recognizer.Runs parser tokens outcome)
    (hdone : outcome = .done value after) :
    ∃ forest notes, recognizer.Builds account forest notes value
      ∧ forest.leaves = tokens ∧ parser.Passes forest notes after := by
  induction h generalizing after with
  | done value parser =>
    cases hdone
    exact ⟨.nil, [], ⟨rfl, rfl, rfl⟩, rfl, .refl parser⟩
  | look _ ih =>
    obtain ⟨forest, notes, hbuilds, hleaves, hpasses⟩ := ih hdone
    exact ⟨forest, notes, ⟨_, hbuilds⟩, hleaves, hpasses⟩
  | accept hkind _ ih =>
    obtain ⟨rest, notes, hbuilds, hleaves, hpasses⟩ := ih hdone
    exact ⟨.leaf _ rest, notes, ⟨_, rest, rfl, hkind, hbuilds⟩,
      congrArg _ hleaves, hpasses.leaf⟩
  | reject hkind => cases hdone
  | refuse reason parser => cases hdone
  | note _ ih =>
    obtain ⟨forest, notes, hbuilds, hleaves, hpasses⟩ := ih hdone
    exact ⟨forest, _, ⟨notes, rfl, hbuilds⟩, hleaves, hpasses.note⟩
  | shut hopen => cases hdone
  | stuck hopen _ _ => cases hdone
  | @through _ _ part _ _ _ _ _ _ _ _ hopen _ _ ihBody ihNext =>
    obtain ⟨inside, before, hinside, rfl, hpart⟩ := ihBody rfl
    obtain ⟨rest, behind, hrest, rfl, hnext⟩ := ihNext hdone
    refine ⟨_, _, ⟨_, rest, before, behind, _, rfl, rfl,
      hbody _ _ _ _ _ hinside, hrest⟩, ?_,
      (Parser.Passes.part hopen hpart).append hnext⟩
    rw [Forest.leaves_append, Part.leaves_wrap]

/-- Parts leave what their phrases derive. -/
theorem derived_body (owner : String) (part : Part) (inside : Forest)
    (notes : List Note) (value : part.Value)
    (h : (body owner part).Builds derived inside notes value) :
    derived owner part (part.wrap inside) notes value :=
  Part.derives_wrap ((conforms_body owner part).sound h)

end Recognizer

-- ============================================== what is left of a source

namespace Parser

/-- The tokens before the end of input that are not yet accepted. -/
def upcoming (parser : Parser) : List Token :=
  if parser.lookahead.kind = .eof then []
  else parser.lookahead :: parser.source.tokens

theorem upcoming_start (source : TokenSource) (limit : Nat) :
    (start source limit).upcoming = source.tokens := by
  unfold upcoming
  by_cases heof : source.next.1.kind = .eof
  · rw [TokenSource.tokens_of_eof heof]
    exact if_pos heof
  · rw [TokenSource.tokens_of_ne_eof heof]
    exact if_neg heof

theorem upcoming_of_ne_eof {parser : Parser}
    (h : parser.lookahead.kind ≠ .eof) :
    parser.upcoming = parser.lookahead :: parser.advance.upcoming := by
  rw [upcoming, if_neg h]
  exact congrArg _ (upcoming_start parser.source parser.limit).symm

/-- Of the upcoming tokens, those that are passed over are no longer to
come. -/
theorem upcoming_of_reaches {parser after : Parser} {tokens : List Token}
    (h : parser.Reaches tokens after)
    (hplain : ∀ token ∈ tokens, token.kind ≠ .eof) :
    parser.upcoming = tokens ++ after.upcoming := by
  induction tokens generalizing parser with
  | nil =>
    have hlookahead := lookahead_eq_of_window h
    have hsource : parser.source = after.source := congrArg Prod.snd h
    rw [List.nil_append, upcoming, upcoming, hlookahead, hsource]
  | cons token tokens ih =>
    obtain ⟨rfl, htail⟩ := h
    obtain ⟨hkind, hothers⟩ := List.forall_mem_cons.1 hplain
    rw [upcoming_of_ne_eof hkind, List.cons_append, ih htail hothers]

end Parser

-- ====================================================== parsing a class

/-- The result of a class, by what its rule came to. Once the rule is
recognized, it is the end of input that decides. -/
def Outcome.parsed : Outcome String → Except SyntaxError ParsedClass
  | .failed error _ => .error error
  | .done name after =>
    if after.lookahead.kind = .eof then
      .ok ⟨name, after.trace, after.subroutines, after.calls⟩
    else .error (.atToken .trailingInput after.lookahead)

theorem parse_eq_parsed (source : TokenSource) (limit : Nat) :
    parse source limit
      = ((Parser.start source limit).run (.rule "" .classDec)).parsed := by
  unfold parse Parser.parseClass
  cases (Parser.start source limit).run (.rule "" .classDec) with
  | failed error after => rfl
  | done name after =>
    rw [Outcome.andThen, Outcome.parsed]
    by_cases heof : after.lookahead.kind = .eof
    · rw [if_pos heof, if_pos (by simp [Parser.peekIs, heof])]
      rfl
    · rw [if_neg heof, if_neg (by simp [Parser.peekIs, heof])]
      rfl

/-- The end of input is only looked at. -/
theorem Parser.after_parseClass (parser : Parser) :
    parser.parseClass.after = (parser.run (.rule "" .classDec)).after := by
  unfold parseClass
  cases parser.run (.rule "" .classDec) with
  | failed error after => rfl
  | done name after =>
    rw [Outcome.andThen]
    split <;> rfl

/-- Parsing runs the rule of a class from the start of the source. -/
theorem exists_runs_parse (source : TokenSource) (limit : Nat) :
    ∃ tokens outcome, (Recognizer.rule "" .classDec).Runs
        (.start source limit) tokens outcome
      ∧ parse source limit = outcome.parsed := by
  obtain ⟨tokens, hruns⟩ :=
    Recognizer.runs_run (.rule "" .classDec) (.start source limit)
  exact ⟨tokens, _, hruns, parse_eq_parsed source limit⟩

/-- What is parsed is what the rule of a class recognizes before the end
of input. -/
theorem Outcome.eq_of_parsed {outcome : Outcome String}
    {parsed : ParsedClass} (h : outcome.parsed = .ok parsed) :
    ∃ after, outcome = .done parsed.name after
      ∧ after.lookahead.kind = .eof
      ∧ parsed = ⟨parsed.name, after.trace, after.subroutines,
          after.calls⟩ := by
  cases outcome with
  | failed error after => cases h
  | done name after =>
    rw [Outcome.parsed] at h
    by_cases heof : after.lookahead.kind = .eof
    · rw [if_pos heof] at h
      cases h
      exact ⟨after, rfl, heof, rfl⟩
    · rw [if_neg heof] at h
      cases h

/-- Where a class is parsed, its rule is recognized up to the end of
input. -/
theorem exists_runs_of_parse {source : TokenSource} {limit : Nat}
    {parsed : ParsedClass} (h : parse source limit = .ok parsed) :
    ∃ tokens after, (Recognizer.rule "" .classDec).Runs
        (.start source limit) tokens (.done parsed.name after)
      ∧ after.lookahead.kind = .eof
      ∧ parsed = ⟨parsed.name, after.trace, after.subroutines,
          after.calls⟩ := by
  obtain ⟨tokens, outcome, hruns, hresult⟩ := exists_runs_parse source limit
  obtain ⟨after, rfl, heof, hparsed⟩ :=
    Outcome.eq_of_parsed (hresult.symm.trans h)
  exact ⟨tokens, after, hruns, heof, hparsed⟩

/-- The name that a class yields is that of the leaf after its keyword. -/
theorem className?_of_builds {inside : Forest} {notes : List Note}
    {name : String}
    (h : Recognizer.classDec.Builds Recognizer.derived inside notes name) :
    (Forest.node .classDec inside .nil).className? = some name := by
  obtain ⟨keyword, _, rfl, -, named, _, rfl, -, _, -, _, _, rfl, -, _, _,
    _, _, _, rfl, -, -, _, _, _, _, _, rfl, -, -, _, _, rfl, -, rfl, -,
    rfl⟩ := h
  rfl

/-- A run over a whole class goes through one derivation of it. -/
theorem passes_class {parser after : Parser} {tokens : List Token}
    {name : String} (h : (Recognizer.rule "" .classDec).Runs parser tokens
      (.done name after)) :
    ∃ forest notes, IsClass forest ∧ forest.leaves = tokens
      ∧ parser.Passes forest notes after
      ∧ forest.className? = some name := by
  cases h with
  | through hopen hbody hdone =>
    cases hdone
    obtain ⟨inside, notes, hbuilds, hleaves, hpasses⟩ :=
      hbody.passes Recognizer.derived_body rfl
    refine ⟨.node .classDec inside .nil, notes,
      .rule (Recognizer.conforms_classDec.sound hbuilds), ?_,
      hpasses.node hopen, className?_of_builds hbuilds⟩
    rw [← hleaves, Forest.leaves, Forest.leaves]

/-- What is passed from the start of a source to its end of input is all
of the source. -/
theorem Parser.Passes.leaves_eq_tokens {source : TokenSource} {limit : Nat}
    {after : Parser} {forest : Forest} {notes : List Note}
    (h : (Parser.start source limit).Passes forest notes after)
    (hplain : ∀ token ∈ forest.leaves, token.kind ≠ .eof)
    (heof : after.lookahead.kind = .eof) : forest.leaves = source.tokens := by
  have hupcoming := Parser.upcoming_of_reaches h.reaches hplain
  rw [Parser.upcoming_start, Parser.upcoming, if_pos heof,
    List.append_nil] at hupcoming
  exact hupcoming.symm

/-- What is parsed has one derivation, of which it is the trace. The
leaves of the derivation are all tokens of the source before the end of
input, and the name of the class is the leaf after the keyword. -/
theorem exists_derivation_of_parse {source : TokenSource} {limit : Nat}
    {parsed : ParsedClass} (h : parse source limit = .ok parsed) :
    ∃ forest, (IsClass forest ∧ parsed.trace.toList = forest.entries
        ∧ forest.leaves = source.tokens
        ∧ forest.className? = some parsed.name)
      ∧ ∀ other, IsClass other → parsed.trace.toList = other.entries →
          other = forest := by
  obtain ⟨tokens, outcome, hruns, hresult⟩ := exists_runs_parse source limit
  obtain ⟨after, rfl, heof, hparsed⟩ :=
    Outcome.eq_of_parsed (hresult.symm.trans h)
  obtain ⟨forest, notes, hclass, -, hpasses, hname⟩ := passes_class hruns
  have htrace : parsed.trace.toList = forest.entries := by
    rw [hparsed, hpasses.trace]
    rfl
  have hplain : ∀ token ∈ forest.leaves, token.kind ≠ .eof :=
    fun token htoken => (hclass.isPlain rfl token htoken).1
  refine ⟨forest, ⟨hclass, htrace, ?_, hname⟩, fun other _ hother => ?_⟩
  · exact hpasses.leaves_eq_tokens hplain heof
  · exact Forest.entries_inj (hother.symm.trans htrace)

/-- A class with a call in a statement is parsed, and so it has its
derivation. -/
theorem exists_derivation_of_parse_call :
    ∃ source parsed, parse source 5 = .ok parsed
      ∧ ∃ forest, (IsClass forest ∧ parsed.trace.toList = forest.entries
          ∧ forest.leaves = source.tokens
          ∧ forest.className? = some parsed.name)
        ∧ ∀ other, IsClass other → parsed.trace.toList = other.entries →
            other = forest := by
  let words : List (Kind × String) := [(.kwClass, "class"),
    (.identifier, "A"), (.openCurly, "\x7b"), (.kwMethod, "method"),
    (.kwInt, "int"), (.identifier, "f"), (.openParen, "("),
    (.closeParen, ")"), (.openCurly, "\x7b"), (.kwReturn, "return"),
    (.identifier, "g"), (.openParen, "("), (.number, "1"),
    (.closeParen, ")"), (.semicolon, ";"), (.closeCurly, "\x7d"),
    (.closeCurly, "\x7d")]
  let source : TokenSource := .ofTokens
    (words.map fun (kind, value) => ⟨kind, value, .start⟩)
  have hok : (parse source 5).isOk = true := by decide +kernel
  cases h : parse source 5 with
  | ok parsed => exact ⟨source, parsed, h, exists_derivation_of_parse h⟩
  | error error =>
    rw [h] at hok
    cases hok

end JackSyntax
