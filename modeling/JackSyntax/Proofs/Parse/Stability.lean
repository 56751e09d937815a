/-
What a run depends on. A run sees the tokens that it accepts and the one
token after them, and nothing of its source beyond; so from another
source that starts with the same tokens it comes to the same outcome
(`Runs.onto`). It sees the limit only where it would go beyond it, so
a higher limit gives the same outcome as long as nothing was too deep.

For the parsing of a class this is `parse_eq_of_reaches`.
-/
import JackSyntax.Proofs.Parse.Soundness

namespace JackSyntax

variable {α : Type}

-- ======================================================== other sources

namespace Parser

/-- The parser with the window of another one and another limit. -/
def onto (parser other : Parser) (limit : Nat) : Parser :=
  { parser with
    lookahead := other.lookahead
    source := other.source
    limit := limit }

theorem onto_congr {parser first second : Parser} {limit : Nat}
    (h : first.window = second.window) :
    parser.onto first limit = parser.onto second limit := by
  have hsource : first.source = second.source := congrArg Prod.snd h
  rw [onto, onto, lookahead_eq_of_window h, hsource]

/-- If the same tokens lead to the same next token, the same token was
next at first. -/
theorem Reaches.lookahead_eq {first last first' last' : Parser}
    {tokens : List Token} (h : first.Reaches tokens last)
    (h' : first'.Reaches tokens last')
    (hnext : last'.lookahead = last.lookahead) :
    first'.lookahead = first.lookahead := by
  cases tokens with
  | nil =>
    rw [lookahead_eq_of_window h, lookahead_eq_of_window h', hnext]
  | cons token tokens => exact h'.1.trans h.1.symm

/-- A part that can be opened can be opened under a higher limit. -/
theorem openPart_onto {parser entered other : Parser} {part : Part}
    {limit : Nat} (h : parser.openPart part = .done () entered)
    (hle : parser.limit ≤ limit) :
    (parser.onto other limit).openPart part
      = .done () (entered.onto other limit) := by
  cases part with
  | many item =>
    cases h
    rfl
  | rule rule =>
    obtain ⟨hlt, rfl⟩ := enter_done h
    exact enter_of_lt fun hcounted => Nat.lt_of_lt_of_le (hlt hcounted) hle

theorem closePart_onto (parser other : Parser) (part : Part)
    (limit : Nat) :
    (parser.closePart part).onto other limit
      = (parser.onto other limit).closePart part := by
  cases part with
  | many item => rfl
  | rule rule =>
    show (parser.exit rule).onto other limit
      = (parser.onto other limit).exit rule
    rw [exit_eq, exit_eq]
    rfl

end Parser

/-- The outcome, had it been come to from another source. -/
def Outcome.onto (outcome : Outcome α) (other : Parser) (limit : Nat) :
    Outcome α :=
  match outcome with
  | .done value after => .done value (after.onto other limit)
  | .failed error after => .failed error (after.onto other limit)

/-- A failure points at the same next token. -/
theorem Parser.reject_onto {parser start stop : Parser} {reason : Reason}
    {limit : Nat} (h : start.window = stop.window)
    (hnext : stop.lookahead = parser.lookahead) :
    ((parser.onto start limit).reject reason : Outcome α)
      = (parser.reject reason).onto stop limit := by
  rw [Parser.onto_congr h, reject, reject, Outcome.onto, ← hnext]
  rfl

/-- The outcome is not that the nesting is too deep. -/
def Outcome.IsShallow : Outcome α → Prop
  | .done _ _ => True
  | .failed error _ => ∀ limit, error.reason ≠ .nestingTooDeep limit

-- ================================================= runs and the window

namespace Recognizer

/-- The tokens that a run accepts are those it passes over. -/
theorem Runs.reaches {recognizer : Recognizer α} {parser : Parser}
    {tokens : List Token} {outcome : Outcome α}
    (h : recognizer.Runs parser tokens outcome) :
    parser.Reaches tokens outcome.after := by
  induction h with
  | done value parser => exact .refl parser
  | look _ ih => exact ih
  | accept hkind _ ih => exact ih.cons
  | reject hkind => exact .refl _
  | refuse reason parser => exact .refl parser
  | note _ ih => exact ih.congr rfl rfl
  | shut hopen =>
    obtain ⟨-, -, -, rfl⟩ := Parser.openPart_failed hopen
    exact .refl _
  | stuck hopen _ ih =>
    exact ih.congr (Parser.openPart_done hopen).1 rfl
  | @through _ _ part _ _ _ inside _ _ _ _ hopen _ _ ihBody ihNext =>
    have hfront := ihBody.congr (Parser.openPart_done hopen).1
      (inside.window_closePart part).symm
    exact hfront.trans ihNext

/-- The same limit, or a higher one if no rule was too deep, and the same
tokens up to the one that is next at the end: then the outcome is the
same. -/
theorem Runs.onto {recognizer : Recognizer α} {parser start stop : Parser}
    {tokens : List Token} {outcome : Outcome α} {limit : Nat}
    (h : recognizer.Runs parser tokens outcome)
    (hreaches : start.Reaches tokens stop)
    (hnext : stop.lookahead = outcome.after.lookahead)
    (hle : parser.limit ≤ limit)
    (hlimit : parser.limit = limit ∨ outcome.IsShallow) :
    recognizer.Runs (parser.onto start limit) tokens
      (outcome.onto stop limit) := by
  induction h generalizing start stop with
  | done value parser =>
    rw [Parser.onto_congr hreaches]
    exact .done value _
  | @look _ next parser tokens outcome h ih =>
    have hagain := ih hreaches hnext hle hlimit
    rw [← h.reaches.lookahead_eq hreaches hnext] at hagain
    exact .look hagain
  | @accept _ _ _ parser _ _ hkind h ih =>
    obtain ⟨hsame, hrest⟩ := hreaches
    have hagain := ih hrest hnext hle hlimit
    have hparser : (parser.advance.mark (.terminal parser.lookahead)).onto
        start.advance limit = (parser.onto start limit).advance.mark
          (.terminal start.lookahead) := by
      simp only [Parser.onto, Parser.mark, Parser.advance, hsame]
    rw [hparser, ← hsame] at hagain
    rw [← hsame] at hkind ⊢
    exact .accept hkind hagain
  | reject hkind =>
    rw [Parser.reject, Outcome.after] at hnext
    have hsame := (Parser.lookahead_eq_of_window hreaches).trans hnext
    rw [← Parser.reject_onto hreaches hnext]
    exact .reject (hsame ▸ hkind)
  | refuse reason parser =>
    rw [Parser.reject, Outcome.after] at hnext
    rw [← Parser.reject_onto hreaches hnext]
    exact .refuse reason _
  | @note _ left _ parser _ _ _ ih =>
    have hagain := ih hreaches hnext hle hlimit
    exact .note hagain
  | @shut _ _ _ _ parser _ _ hopen =>
    obtain ⟨⟨rule, rfl, hcounted⟩, hdepth, rfl, rfl⟩ :=
      Parser.openPart_failed hopen
    -- the limit is the same, for the outcome is not shallow
    obtain rfl := hlimit.resolve_right fun hshallow => hshallow _ rfl
    have henter : (parser.onto start parser.limit).enter rule = _ :=
      Parser.enter_of_le hcounted hdepth
    exact .shut (henter.trans (Parser.reject_onto hreaches hnext))
  | stuck hopen _ ih =>
    obtain ⟨-, hentered, -⟩ := Parser.openPart_done hopen
    rw [← hentered] at hle hlimit
    have hagain := ih hreaches hnext hle hlimit
    exact .stuck (Parser.openPart_onto hopen (hentered ▸ hle)) hagain
  | @through _ _ part _ _ _ inside _ _ _ _ hopen hbody hrun ihBody
      ihNext =>
    obtain ⟨middle, hfront, hback⟩ := Parser.reaches_append.1 hreaches
    obtain ⟨-, hentered, -⟩ := Parser.openPart_done hopen
    obtain ⟨_, _, -, -, hpasses⟩ := hbody.passes derived_body rfl
    have hclosed := (Parser.Passes.part hopen hpasses).limit
    -- the part itself is shallow, for it succeeds
    have hmiddle : middle.lookahead = inside.lookahead :=
      (hrun.reaches.lookahead_eq hback hnext).trans
        (Parser.lookahead_eq_of_window (inside.window_closePart part))
    have hbody' := ihBody hfront hmiddle (hentered ▸ hle) (.inr trivial)
    rw [← hclosed] at hlimit
    have hnext' := ihNext hback hnext (hclosed ▸ hle) hlimit
    rw [Parser.closePart_onto] at hnext'
    exact .through (Parser.openPart_onto hopen hle) hbody' hnext'

end Recognizer

-- ======================================================= whole classes

/-- The result has nothing of the source in it. -/
theorem Outcome.parsed_onto {outcome : Outcome String} {other : Parser}
    {limit : Nat} (h : other.lookahead = outcome.after.lookahead) :
    (outcome.onto other limit).parsed = outcome.parsed := by
  cases outcome with
  | failed error after => rfl
  | done name after =>
    change other.lookahead = after.lookahead at h
    rw [onto, parsed, parsed, Parser.onto, h]
    rfl

/-- If a source hands out the tokens that were accepted and the same
token after them, parsing it has the same result. The limit must be the
same, or a higher one if the nesting was not too deep. -/
theorem parse_eq_of_reaches {source other : TokenSource}
    {limit bound : Nat} {tokens : List Token} {outcome : Outcome String}
    {stop : Parser}
    (h : (Recognizer.rule "" .classDec).Runs (.start source limit) tokens
      outcome)
    (hreaches : (Parser.start other bound).Reaches tokens stop)
    (hnext : stop.lookahead = outcome.after.lookahead)
    (hle : limit ≤ bound) (hlimit : limit = bound ∨ outcome.IsShallow) :
    parse other bound = outcome.parsed := by
  have hagain := h.onto hreaches hnext hle hlimit
  have hstart : (Parser.start source limit).onto (.start other bound) bound
      = .start other bound := rfl
  rw [hstart] at hagain
  rw [parse_eq_parsed, hagain.run_eq, Outcome.parsed_onto hnext]

end JackSyntax
