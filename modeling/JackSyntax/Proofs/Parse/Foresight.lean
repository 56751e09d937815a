/-
How far ahead parsing looks: one token. As long as two sources hand out
the same tokens, runs over them do the same, and they go on doing the
same until the last of these tokens has been accepted; only then can what
comes after it make a difference.

A run that accepts fewer tokens than agree comes to the same outcome from
both sources (`Runs.onto`). For one that accepts more, the other run is
built beside it up to the token in question, and what both traces begin
with is kept track of (`Runs.foresees`). From there on the other run goes
its own way, of which nothing has to be known but that it ends and never
takes back what it has recorded.
-/
import JackSyntax.Proofs.Parse.Sequence

namespace JackSyntax

variable {α : Type}

-- ======================================================== equal windows

namespace Parser

/-- The next token and so many after it are the same for both. -/
def Agrees (count : Nat) (parser other : Parser) : Prop :=
  parser.lookahead :: parser.source.take count
    = other.lookahead :: other.source.take count

variable {parser other : Parser} {count : Nat}

theorem Agrees.lookahead (h : parser.Agrees count other) :
    parser.lookahead = other.lookahead := (List.cons.inj h).1

theorem Agrees.advance (h : parser.Agrees (count + 1) other) :
    parser.advance.Agrees count other.advance := (List.cons.inj h).2

/-- Only the windows matter. -/
theorem Agrees.congr {moved : Parser} (h : parser.Agrees count other)
    (hwindow : moved.window = parser.window) :
    moved.Agrees count other := by
  have hsource : moved.source = parser.source := congrArg Prod.snd hwindow
  rw [Agrees, lookahead_eq_of_window hwindow, hsource]
  exact h

/-- What the one passes over the other can pass over too, as long as it
is among the tokens that agree. -/
theorem Agrees.exists_reaches {stop : Parser} {tokens : List Token}
    (h : parser.Agrees count other) (hreaches : parser.Reaches tokens stop)
    (hlength : tokens.length ≤ count) :
    ∃ stop', other.Reaches tokens stop'
      ∧ stop.Agrees (count - tokens.length) stop' := by
  induction tokens generalizing parser other count with
  | nil => exact ⟨other, .refl other, h.congr (Eq.symm hreaches)⟩
  | cons token tokens ih =>
    obtain ⟨hhead, htail⟩ := hreaches
    cases count with
    | zero => cases hlength
    | succ count =>
      obtain ⟨stop', hrest, hagrees⟩ :=
        ih h.advance htail (Nat.le_of_succ_le_succ hlength)
      refine ⟨stop', ⟨h.lookahead.symm.trans hhead, hrest⟩, ?_⟩
      rwa [List.length_cons, Nat.add_sub_add_right]

-- ============================================ nothing is taken back

theorem trace_prefix_mark (parser : Parser) (entry : Entry) :
    parser.trace.toList <+: (parser.mark entry).trace.toList := by
  rw [mark, Trace.toList_push]
  exact List.prefix_append _ _

theorem trace_prefix_openPart {entered : Parser} {part : Part}
    (h : parser.openPart part = .done () entered) :
    parser.trace.toList <+: entered.trace.toList := by
  cases part with
  | many item =>
    cases h
    exact List.prefix_rfl
  | rule rule =>
    obtain ⟨-, rfl⟩ := enter_done h
    exact parser.trace_prefix_mark (.enter rule)

theorem trace_prefix_closePart (parser : Parser) (part : Part) :
    parser.trace.toList <+: (parser.closePart part).trace.toList := by
  cases part with
  | many item => exact List.prefix_rfl
  | rule rule =>
    show _ <+: (parser.exit rule).trace.toList
    rw [exit_eq]
    exact parser.trace_prefix_mark (.exit rule)

end Parser

namespace Recognizer

/-- A run does nothing to its trace but add to it. -/
theorem Runs.trace_prefix {recognizer : Recognizer α} {parser : Parser}
    {tokens : List Token} {outcome : Outcome α}
    (h : recognizer.Runs parser tokens outcome) :
    parser.trace.toList <+: outcome.after.trace.toList := by
  induction h with
  | done value parser => exact List.prefix_rfl
  | look _ ih => exact ih
  | @accept _ _ _ parser _ _ _ _ ih =>
    exact (parser.advance.trace_prefix_mark _).trans ih
  | reject _ => exact List.prefix_rfl
  | refuse reason parser => exact List.prefix_rfl
  | note _ ih => exact ih
  | shut hopen =>
    obtain ⟨-, -, -, rfl⟩ := Parser.openPart_failed hopen
    exact List.prefix_rfl
  | stuck hopen _ ih => exact (Parser.trace_prefix_openPart hopen).trans ih
  | @through _ _ part _ _ _ inside _ _ _ _ hopen _ _ ihBody ihNext =>
    have hbody := (Parser.trace_prefix_openPart hopen).trans ihBody
    exact (hbody.trans (inside.trace_prefix_closePart part)).trans ihNext

/-- What the body of a part does can be gone on with in some way. -/
theorem Runs.exists_call {owner : String} {part : Part}
    (next : part.Value → Recognizer α) {parser entered : Parser}
    {tokens : List Token} {outcome : Outcome part.Value}
    (hopen : parser.openPart part = .done () entered)
    (hbody : (body owner part).Runs entered tokens outcome) :
    ∃ tokens' outcome', (call owner part next).Runs parser tokens' outcome'
      ∧ outcome.after.trace.toList <+: outcome'.after.trace.toList := by
  cases outcome with
  | failed error after =>
    exact ⟨tokens, .failed error after, .stuck hopen hbody, List.prefix_rfl⟩
  | done value inside =>
    obtain ⟨back, hback⟩ := runs_run (next value) (inside.closePart part)
    refine ⟨tokens ++ back, _, .through hopen hbody hback, ?_⟩
    exact (inside.trace_prefix_closePart part).trans hback.trace_prefix

-- ================================================== one token ahead

/-- A run that accepts more tokens than the next ones that agree shares
its trace with a run from the other source, up to and with the last token
that agrees. -/
theorem Runs.foresees {recognizer : Recognizer α} {parser start : Parser}
    {tokens : List Token} {outcome : Outcome α} {limit count : Nat}
    (h : recognizer.Runs parser tokens outcome)
    (hagrees : parser.Agrees count start) (hlimit : parser.limit = limit)
    (hlong : count < tokens.length) :
    ∃ tokens' outcome' shared,
      recognizer.Runs (parser.onto start limit) tokens' outcome'
        ∧ shared <+: outcome.after.trace.toList
        ∧ shared <+: outcome'.after.trace.toList
        ∧ (shared.filterMap Entry.token?).length
            = parser.accepted.length + (count + 1) := by
  induction h generalizing start count with
  | done value parser => cases hlong
  | reject hkind => cases hlong
  | refuse reason parser => cases hlong
  | shut hopen => cases hlong
  | @look _ next parser _ _ _ ih =>
    obtain ⟨tokens', outcome', shared, hruns, hshared⟩ :=
      ih hagrees hlimit hlong
    refine ⟨tokens', outcome', shared, .look ?_, hshared⟩
    rw [hagrees.lookahead] at hruns
    exact hruns
  | note _ ih =>
    obtain ⟨tokens', outcome', shared, hruns, hshared⟩ :=
      ih hagrees hlimit hlong
    exact ⟨tokens', outcome', shared, .note hruns, hshared⟩
  | @accept _ kinds next parser tokens outcome hkind h ih =>
    have hsame := hagrees.lookahead
    have hlength : (parser.advance.mark
        (.terminal parser.lookahead)).accepted.length
          = parser.accepted.length + 1 := by
      rw [Parser.accepted_mark, List.length_append]
      rfl
    have hparser : (parser.advance.mark (.terminal parser.lookahead)).onto
        start.advance limit = (parser.onto start limit).advance.mark
          (.terminal start.lookahead) := by
      simp only [Parser.onto, Parser.mark, Parser.advance, hsame]
    have hkind' : (parser.onto start limit).lookahead.kind ∈ kinds :=
      hsame ▸ hkind
    cases count with
    | zero =>
      -- this is the last token that agrees
      obtain ⟨rest, hrest⟩ := runs_run (next start.lookahead)
        ((parser.advance.mark (.terminal parser.lookahead)).onto
          start.advance limit)
      generalize Parser.run _ (next start.lookahead) = ended at hrest
      have htrace := hrest.trace_prefix
      rw [hparser] at hrest
      exact ⟨_, _, _, .accept hkind' hrest, h.trace_prefix, htrace, hlength⟩
    | succ count =>
      obtain ⟨tokens', outcome', shared, hruns, hfirst, hsecond, hcount⟩ :=
        ih hagrees.advance hlimit (Nat.lt_of_succ_lt_succ hlong)
      rw [hparser, hsame] at hruns
      refine ⟨_, outcome', shared, .accept hkind' hruns, hfirst, hsecond, ?_⟩
      rw [hcount, hlength]
      omega
  | @stuck _ owner part next parser entered after _ _ hopen _ ih =>
    obtain ⟨hwindow, hentered, -⟩ := Parser.openPart_done hopen
    obtain ⟨_, _, shared, hruns, hfirst, hsecond, hcount⟩ :=
      ih (hagrees.congr hwindow) (hentered.trans hlimit) hlong
    obtain ⟨tokens', outcome', hcall, htrace⟩ := hruns.exists_call next
      (Parser.openPart_onto hopen (Nat.le_of_eq hlimit))
    rw [Parser.accepted_openPart hopen] at hcount
    exact ⟨tokens', outcome', shared, hcall, hfirst, hsecond.trans htrace,
      hcount⟩
  | @through _ owner part next parser entered inside front back value outcome
      hopen hbody hnext ihBody ihNext =>
    obtain ⟨hwindow, hentered, -⟩ := Parser.openPart_done hopen
    have hopen' : (parser.onto start limit).openPart part = _ :=
      Parser.openPart_onto hopen (Nat.le_of_eq hlimit)
    have hinside := hagrees.congr hwindow
    by_cases hfront : count < front.length
    · -- the last token that agrees is accepted inside the part
      obtain ⟨_, _, shared, hruns, hfirst, hsecond, hcount⟩ :=
        ihBody hinside (hentered.trans hlimit) hfront
      obtain ⟨tokens', outcome', hcall, htrace⟩ :=
        hruns.exists_call next hopen'
      rw [Parser.accepted_openPart hopen] at hcount
      refine ⟨tokens', outcome', shared, hcall, ?_, hsecond.trans htrace,
        hcount⟩
      exact (hfirst.trans (inside.trace_prefix_closePart part)).trans
        hnext.trace_prefix
    · -- the part is over before that, and it is the same part
      rw [Nat.not_lt] at hfront
      obtain ⟨middle, hreaches, hmiddle⟩ :=
        hinside.exists_reaches hbody.reaches hfront
      have hsame := hbody.onto hreaches hmiddle.lookahead.symm
        (Nat.le_of_eq (hentered.trans hlimit)) (.inr trivial)
      obtain ⟨_, _, -, -, hpasses⟩ := hbody.passes derived_body rfl
      have hclosed := (Parser.Passes.part hopen hpasses).limit
      have haccepted : (inside.closePart part).accepted
          = parser.accepted ++ front := by
        rw [Parser.accepted_closePart, ← Parser.accepted_openPart hopen]
        exact hbody.accepted_eq
      rw [List.length_append] at hlong
      obtain ⟨tokens', outcome', shared, hruns, hfirst, hsecond, hcount⟩ :=
        ihNext (hmiddle.congr (inside.window_closePart part))
          (hclosed.trans hlimit) (by omega)
      rw [Parser.closePart_onto] at hruns
      refine ⟨_, outcome', shared, .through hopen' hsame hruns, hfirst,
        hsecond, ?_⟩
      rw [hcount, haccepted, List.length_append]
      omega

end Recognizer

-- ======================================================= whole classes

section Class

variable {source other : TokenSource} {limit count : Nat}

/-- Sources that hand out the same for longer than the one is consumed
have runs that come to the same. -/
theorem exists_onto_of_take_eq
    (h : source.take (count + 1) = other.take (count + 1))
    (hcount : (consumed source limit).length ≤ count) :
    ∃ (outcome : Outcome String) (stop : Parser),
      parse source limit = outcome.parsed
      ∧ stop.lookahead = outcome.after.lookahead
      ∧ (Parser.start source limit).parseClass.after = outcome.after
      ∧ (Parser.start other limit).run (.rule "" .classDec)
          = outcome.onto stop limit := by
  obtain ⟨outcome, hruns, hresult, hafter⟩ :=
    exists_runs_consumed source limit
  have hagrees : (Parser.start source limit).Agrees count
      (.start other limit) := h
  obtain ⟨stop, hreaches, hstop⟩ :=
    hagrees.exists_reaches hruns.reaches hcount
  have hagain := hruns.onto hreaches hstop.lookahead.symm
    (Nat.le_refl limit) (.inl rfl)
  exact ⟨outcome, stop, hresult, hstop.lookahead.symm, hafter, hagain.run_eq⟩

/-- Sources that hand out the same for longer than the one is consumed
are parsed to the same result. -/
theorem parse_eq_of_take_eq
    (h : source.take (count + 1) = other.take (count + 1))
    (hcount : (consumed source limit).length ≤ count) :
    parse other limit = parse source limit := by
  obtain ⟨outcome, stop, hresult, hnext, -, hrun⟩ :=
    exists_onto_of_take_eq h hcount
  rw [parse_eq_parsed, hrun, hresult, Outcome.parsed_onto hnext]

/-- They also leave the same trace, whether there is an error or not. -/
theorem trace_eq_of_take_eq
    (h : source.take (count + 1) = other.take (count + 1))
    (hcount : (consumed source limit).length ≤ count) :
    (Parser.start other limit).parseClass.after.trace
      = (Parser.start source limit).parseClass.after.trace := by
  obtain ⟨outcome, stop, -, -, hafter, hrun⟩ :=
    exists_onto_of_take_eq h hcount
  rw [Parser.after_parseClass, hrun, hafter]
  cases outcome <;> rfl

theorem consumed_eq_of_take_eq
    (h : source.take (count + 1) = other.take (count + 1))
    (hcount : (consumed source limit).length ≤ count) :
    consumed other limit = consumed source limit := by
  have htrace := trace_eq_of_take_eq h hcount
  exact congrArg (fun trace : Trace =>
    trace.toList.filterMap Entry.token?) htrace

/-- Until more tokens are accepted than sources have in common, parsing
them goes through the same moments. -/
theorem moment_of_take_eq {moment : List Entry}
    (h : source.take (count + 1) = other.take (count + 1))
    (hmoment : moment <+:
      (Parser.start source limit).parseClass.after.trace.toList)
    (haccepted : (moment.filterMap Entry.token?).length ≤ count) :
    moment <+: (Parser.start other limit).parseClass.after.trace.toList := by
  by_cases hshort : (consumed source limit).length ≤ count
  · rw [trace_eq_of_take_eq h hshort]
    exact hmoment
  · obtain ⟨outcome, hruns, -, hafter⟩ := exists_runs_consumed source limit
    have hagrees : (Parser.start source limit).Agrees count
        (.start other limit) := h
    obtain ⟨_, _, shared, hother, hfirst, hsecond, hcount⟩ :=
      hruns.foresees hagrees rfl (Nat.not_le.1 hshort)
    have hrun : (Parser.start other limit).run (.rule "" .classDec) = _ :=
      hother.run_eq
    rw [Parser.after_parseClass, hrun]
    rw [hafter] at hmoment
    rcases List.prefix_or_prefix_of_prefix hmoment hfirst with hle | hlong
    · exact hle.trans hsecond
    · -- the shared part has one token more than the moment
      have hmore := (hlong.filterMap Entry.token?).length_le
      have hnone : (Parser.start source limit).accepted.length = 0 := rfl
      omega

end Class

/-- The first error stands, whatever follows it. A list of tokens with the
same tokens before an error and at it has the same error, after the same
tokens.

No decision depends on a token beyond the next one: sources that hand out
the same tokens up to some token are parsed to the same result if no more
tokens are consumed, and in any case through the same moments until more
are accepted. What is consumed are the first tokens of the source, none of
them an end of input, and an error shows at the token after them. -/
theorem parse_error_stable (limit : Nat) :
    (∀ (tokens tokens' : List Token) (count : Nat) (error : SyntaxError),
        tokens.take (count + 1) = tokens'.take (count + 1) →
        parse (.ofTokens tokens) limit = .error error →
        (consumed (.ofTokens tokens) limit).length = count →
        parse (.ofTokens tokens') limit = .error error
          ∧ consumed (.ofTokens tokens') limit
              = consumed (.ofTokens tokens) limit)
      ∧ (∀ (source other : TokenSource) (count : Nat),
          source.take (count + 1) = other.take (count + 1) →
          ((consumed source limit).length ≤ count →
            parse other limit = parse source limit)
          ∧ ∀ moment, moment <+:
              (Parser.start source limit).parseClass.after.trace.toList →
            (moment.filterMap Entry.token?).length ≤ count →
            moment <+:
              (Parser.start other limit).parseClass.after.trace.toList)
      ∧ ∀ source : TokenSource,
          (∀ token ∈ consumed source limit, token.kind ≠ .eof)
          ∧ ∃ next, source.take ((consumed source limit).length + 1)
                = consumed source limit ++ [next]
              ∧ ∀ error, parse source limit = .error error →
                  error = .atToken error.reason next := by
  refine ⟨?_, ?_, ?_⟩
  · intro tokens tokens' count error hagree herror hcount
    have hsources : (TokenSource.ofTokens tokens).take (count + 1)
        = (TokenSource.ofTokens tokens').take (count + 1) :=
      TokenSource.take_list_congr hagree .start
    have hle := Nat.le_of_eq hcount
    exact ⟨(parse_eq_of_take_eq hsources hle).trans herror,
      consumed_eq_of_take_eq hsources hle⟩
  · intro source other count h
    exact ⟨parse_eq_of_take_eq h, fun moment => moment_of_take_eq h⟩
  · intro source
    obtain ⟨outcome, hruns, -, -⟩ := exists_runs_consumed source limit
    exact ⟨fun token htoken => (isPlain_of_runs hruns token htoken).1,
      exists_next_of_parse source limit⟩

/-- After `class A` a character that is illegal is the error, whether the
class goes on after it or there is nothing. -/
theorem parse_error_stable_illegal :
    ∃ (tokens tokens' : List Token) (error : SyntaxError)
      (moment : List Entry),
      tokens.length = 4 ∧ tokens'.length = 6 ∧ moment.length = 3
        ∧ tokens.take (2 + 1) = tokens'.take (2 + 1)
        ∧ parse (.ofTokens tokens) 0 = .error error
        ∧ (consumed (.ofTokens tokens) 0).length = 2
        ∧ parse (.ofTokens tokens') 0 = .error error
        ∧ moment <+: (Parser.start (.ofTokens tokens)
            0).parseClass.after.trace.toList
        ∧ (moment.filterMap Entry.token?).length ≤ 2
        ∧ moment <+: (Parser.start (.ofTokens tokens')
            0).parseClass.after.trace.toList := by
  let keyword : Token := ⟨.kwClass, "class", ⟨1, 1⟩⟩
  let name : Token := ⟨.identifier, "A", ⟨1, 7⟩⟩
  let front : List Token := [keyword, name, ⟨.illegal, "?", ⟨1, 8⟩⟩]
  let tokens : List Token := front ++ [.eof ⟨1, 9⟩]
  let tokens' : List Token := front ++ [⟨.openCurly, "\x7b", ⟨1, 9⟩⟩,
    ⟨.closeCurly, "\x7d", ⟨1, 10⟩⟩, .eof ⟨1, 11⟩]
  let moment : List Entry :=
    [.enter .classDec, .terminal keyword, .terminal name]
  have hfails : (parse (.ofTokens tokens) 0).isOk = false := by
    decide +kernel
  have hcount : (consumed (.ofTokens tokens) 0).length = 2 := by
    decide +kernel
  have hmoment : moment <+: (Parser.start (.ofTokens tokens)
      0).parseClass.after.trace.toList := by decide +kernel
  have hsources : (TokenSource.ofTokens tokens).take (2 + 1)
      = (TokenSource.ofTokens tokens').take (2 + 1) := by decide +kernel
  obtain ⟨hlists, hshared, -⟩ := parse_error_stable 0
  cases herror : parse (.ofTokens tokens) 0 with
  | ok parsed =>
    rw [herror] at hfails
    cases hfails
  | error error =>
    obtain ⟨hagain, -⟩ := hlists tokens tokens' 2 error rfl herror hcount
    obtain ⟨-, hmoments⟩ := hshared _ _ 2 hsources
    exact ⟨tokens, tokens', error, moment, rfl, rfl, rfl, rfl, herror,
      hcount, hagain, hmoment, by decide, hmoments moment hmoment (by decide)⟩

end JackSyntax
