/-
Sessions: operations on one parser, one after the other, in any order and
as many as one likes. An operation that fails does not end a session; the
next one finds the parser as the failed one has left it, with its depth,
and with rules in its trace that were never closed.

What holds through all of a session is where its window stands. So many
tokens of the source have been passed over (`place`), the last of them is
the current one, and the next one is the one after it (`Parser.IsAt`). An
operation moves the window forward or leaves it (`Operation.MovesFrom`):
`advance` drops the token that it moves over, and every other operation
moves by accepting tokens, each of which goes into the trace. So no token
is lost or accepted twice, whatever went wrong before (`movesFrom_place`).

One step of a recognizer keeps this, as every run of one is made of such
steps (`Recognizer.Runs.isAt`). What a session does is built on that.
-/
import Mathlib.Data.List.Induction
import JackSyntax.Proofs.Parse.Sequence

namespace JackSyntax

-- =========================================================== operations

/-- What can be recognized by itself: a rule, or what several rules have
in common. -/
inductive Piece : Type → Type
  | rule (named : Rule) : Piece (Part.rule named).Value
  | type : Piece Token
  | names : Piece Nat
  | condition : Piece Unit
  | block : Piece Unit
  | statement : Piece Unit
  /-- A call after its first name. -/
  | subroutineCall (first : Token) : Piece Call

/-- What a piece consists of, within a class of the given name. -/
def Piece.recognizer {α : Type} (owner : String) :
    Piece α → Recognizer α
  | .rule named => .rule owner named
  | .type => .type
  | .names => .names owner
  | .condition => .condition owner
  | .block => .block owner
  | .statement => .statement owner
  | .subroutineCall first => .subroutineCall owner first

/-- What can be asked of a parser, or done with it, and the type of the
answer. -/
inductive Operation : Type → Type 1
  | current : Operation (Option Token)
  | lookahead : Operation Token
  | peek : Operation Kind
  | peekIs (kind : Kind) : Operation Bool
  | peekIsOneOf (kinds : List Kind) : Operation Bool
  | currentIs (kind : Kind) : Operation Bool
  | advance : Operation Unit
  | accept (kinds : List Kind) : Operation Token
  | descend : Operation Unit
  | ascend : Operation Unit
  | recognize {α : Type} (owner : String) (piece : Piece α) : Operation α

namespace Operation

variable {α : Type}

/-- What an operation comes to. -/
def perform : Operation α → Parser → Outcome α
  | .current, parser => .done parser.current? parser
  | .lookahead, parser => .done parser.lookahead parser
  | .peek, parser => .done parser.lookahead.kind parser
  | .peekIs kind, parser => .done (parser.peekIs kind) parser
  | .peekIsOneOf kinds, parser => .done (parser.peekIsOneOf kinds) parser
  | .currentIs kind, parser => .done (parser.currentIs kind) parser
  | .advance, parser => .done () parser.advance
  | .accept kinds, parser => parser.accept kinds
  | .descend, parser => parser.descend
  | .ascend, parser => .done () parser.ascend
  | .recognize owner piece, parser => parser.run (piece.recognizer owner)

/-- The operation moves the window without accepting a token. -/
def isAdvance : Operation α → Bool
  | .advance => true
  | _ => false

/-- The operation is to accept a token. -/
def isAccept : Operation α → Bool
  | .accept _ => true
  | _ => false

/-- The tokens that the operation consumes, one for each time that a token
is accepted, by the operation itself or by a step of the recognizer that
it runs. -/
def Consumes (operation : Operation α) (parser : Parser)
    (tokens : List Token) : Prop :=
  match operation with
  | .accept kinds =>
    tokens = if parser.peekIsOneOf kinds then [parser.lookahead] else []
  | .recognize owner piece =>
    (piece.recognizer owner).Runs parser tokens
      (parser.run (piece.recognizer owner))
  | _ => tokens = []

end Operation

/-- An operation, whatever its answer is. -/
abbrev AnyOperation : Type 1 := (α : Type) × Operation α

/-- The parser after a session with it. -/
def Parser.afterSession (parser : Parser) (session : List AnyOperation) :
    Parser :=
  session.foldl (fun before operation => (operation.2.perform before).after)
    parser

-- =============================================================== places

namespace TokenSource

/-- The source after so many tokens. -/
def skip : (count : Nat) → TokenSource → TokenSource
  | 0, source => source
  | count + 1, source => skip count source.next.2

/-- The token at a place of the source, counted from zero. -/
def nth (source : TokenSource) (place : Nat) : Token :=
  (source.skip place).next.1

/-- The tokens from one place on and before another. -/
def between (source : TokenSource) (place reached : Nat) : List Token :=
  (source.skip place).take (reached - place)

theorem skip_succ (source : TokenSource) (count : Nat) :
    source.skip (count + 1) = (source.skip count).next.2 := by
  induction count generalizing source with
  | zero => rfl
  | succ count ih => exact ih source.next.2

theorem skip_add (source : TokenSource) (first second : Nat) :
    source.skip (first + second) = (source.skip first).skip second := by
  induction second with
  | zero => rfl
  | succ second ih => rw [← Nat.add_assoc, skip_succ, skip_succ, ih]

theorem take_add (source : TokenSource) (first second : Nat) :
    source.take (first + second)
      = source.take first ++ (source.skip first).take second := by
  induction first generalizing source with
  | zero => rw [Nat.zero_add]; rfl
  | succ first ih =>
    rw [Nat.succ_add, take, ih]
    rfl

theorem length_take (source : TokenSource) (count : Nat) :
    (source.take count).length = count := by
  induction count generalizing source with
  | zero => rfl
  | succ count ih => exact congrArg (· + 1) (ih source.next.2)

end TokenSource

/-- The window stands at a place of the source: so many tokens have been
passed over, the last of them is the current one, and the one at the place
is next. -/
structure Parser.IsAt (parser : Parser) (source : TokenSource)
    (place : Nat) : Prop where
  current : parser.current?
    = if place = 0 then none else some (source.nth (place - 1))
  lookahead : parser.lookahead = source.nth place
  /-- The source holds what comes after the next token. -/
  rest : parser.source = source.skip (place + 1)

namespace Parser.IsAt

variable {parser : Parser} {source : TokenSource} {place : Nat}

theorem start (source : TokenSource) (limit : Nat) :
    (Parser.start source limit).IsAt source 0 := ⟨rfl, rfl, rfl⟩

/-- What is not in the window does not matter. -/
theorem congr {other : Parser} (h : parser.IsAt source place)
    (hcurrent : other.current? = parser.current?)
    (hwindow : other.window = parser.window) : other.IsAt source place where
  current := hcurrent.trans h.current
  lookahead := (congrArg Prod.fst hwindow).trans h.lookahead
  rest := (congrArg Prod.snd hwindow).trans h.rest

/-- The window moves over the next token. -/
theorem advance (h : parser.IsAt source place) :
    parser.advance.IsAt source (place + 1) where
  current := by
    rw [if_neg (Nat.succ_ne_zero place), Nat.add_sub_cancel, ← h.lookahead]
    rfl
  lookahead := by
    show parser.source.next.1 = _
    rw [h.rest]
    rfl
  rest := by
    show parser.source.next.2 = _
    rw [h.rest, ← TokenSource.skip_succ]

theorem mark (h : parser.IsAt source place) (entry : Entry) :
    (parser.mark entry).IsAt source place := h.congr rfl rfl

theorem openPart {entered : Parser} {part : Part}
    (h : parser.IsAt source place)
    (hopen : parser.openPart part = .done () entered) :
    entered.IsAt source place := by
  cases part with
  | many item =>
    cases hopen
    exact h
  | rule rule =>
    obtain ⟨-, rfl⟩ := enter_done hopen
    exact h.congr rfl rfl

theorem closePart (h : parser.IsAt source place) (part : Part) :
    (parser.closePart part).IsAt source place := by
  cases part with
  | many item => exact h
  | rule rule =>
    show (parser.exit rule).IsAt source place
    rw [exit_eq]
    exact h.congr rfl rfl

end Parser.IsAt

-- ========================================================== along a run

/-- A run moves the window over the tokens that it accepts and over no
others, and they are the next ones of the source. -/
theorem Recognizer.Runs.isAt {α : Type} {recognizer : Recognizer α}
    {parser : Parser} {tokens : List Token} {outcome : Outcome α}
    (h : recognizer.Runs parser tokens outcome) {source : TokenSource}
    {place : Nat} (hat : parser.IsAt source place) :
    outcome.after.IsAt source (place + tokens.length)
      ∧ tokens = (source.skip place).take tokens.length := by
  induction h generalizing place with
  | done value parser => exact ⟨hat, rfl⟩
  | look _ ih => exact ih hat
  | @accept _ _ _ parser tokens _ _ _ ih =>
    obtain ⟨hafter, htokens⟩ := ih (hat.advance.mark _)
    rw [List.length_cons, Nat.add_comm tokens.length 1, ← Nat.add_assoc,
      TokenSource.take_add, ← TokenSource.skip_add, ← htokens,
      hat.lookahead]
    exact ⟨hafter, rfl⟩
  | reject _ => exact ⟨hat, rfl⟩
  | refuse reason parser => exact ⟨hat, rfl⟩
  | note _ ih => exact ih (hat.congr rfl rfl)
  | shut hopen =>
    obtain ⟨-, -, -, rfl⟩ := Parser.openPart_failed hopen
    exact ⟨hat.congr rfl rfl, rfl⟩
  | stuck hopen _ ih => exact ih (hat.openPart hopen)
  | @through _ _ part _ _ _ _ front back _ _ hopen _ _ ihBody ihNext =>
    obtain ⟨hinside, hfront⟩ := ihBody (hat.openPart hopen)
    obtain ⟨hafter, hback⟩ := ihNext (hinside.closePart part)
    rw [List.length_append, ← Nat.add_assoc, TokenSource.take_add,
      ← TokenSource.skip_add, ← hfront, ← hback]
    exact ⟨hafter, rfl⟩

-- ======================================================= one operation

/-- What an operation does to a parser at a place of a source. -/
structure Operation.MovesFrom {α : Type} (operation : Operation α)
    (parser : Parser) (source : TokenSource) (place reached : Nat) :
    Prop where
  forward : place ≤ reached
  /-- The window stands at the place that is reached. -/
  isAt : (operation.perform parser).after.IsAt source reached
  /-- What is consumed is added to the terminals of the trace, and it is
  what the window moves over, unless the operation is to move over a token
  without consuming it. -/
  consumes : ∃ tokens, operation.Consumes parser tokens
    ∧ (operation.perform parser).after.accepted = parser.accepted ++ tokens
    ∧ (operation.isAdvance = false → tokens = source.between place reached)
  /-- A failure shows at the token that is next when it is over. -/
  error {error : SyntaxError} {after : Parser} :
    operation.perform parser = .failed error after →
      error.position = after.lookahead.position
        ∧ error.location = .ofToken after.lookahead
  /-- If a token is not accepted nothing changes. -/
  reject {error : SyntaxError} {after : Parser} :
    operation.isAccept = true →
      operation.perform parser = .failed error after → after = parser

namespace Operation

variable {α : Type} {parser : Parser} {source : TokenSource} {place : Nat}

/-- Either the next token is accepted, or the parser stays as it is and
the error points at that token. -/
theorem accept_cases (parser : Parser) (kinds : List Kind) :
    parser.peekIsOneOf kinds = true
        ∧ parser.accept kinds = .done parser.lookahead
            (parser.advance.mark (.terminal parser.lookahead))
      ∨ parser.peekIsOneOf kinds = false
        ∧ parser.accept kinds
          = .failed (.atToken (.expected kinds) parser.lookahead) parser := by
  unfold Parser.accept
  cases hpeek : parser.peekIsOneOf kinds with
  | true => exact .inl ⟨rfl, rfl⟩
  | false => exact .inr ⟨rfl, rfl⟩

theorem eq_of_accept_failed {operation : Operation α} {error : SyntaxError}
    {after : Parser} (haccept : operation.isAccept = true)
    (h : operation.perform parser = .failed error after) :
    after = parser := by
  cases operation with
  | accept kinds =>
    rcases accept_cases parser kinds with ⟨-, hdone⟩ | ⟨-, hfailed⟩
    · cases hdone.symm.trans h
    · cases hfailed.symm.trans h
      rfl
  | _ => cases haccept

/-- An operation that leaves window and trace alone consumes nothing and
does not move. -/
theorem MovesFrom.still {operation : Operation α}
    (hat : parser.IsAt source place)
    (hnothing : operation.Consumes parser [])
    (hcurrent : (operation.perform parser).after.current? = parser.current?)
    (hwindow : (operation.perform parser).after.window = parser.window)
    (htrace : (operation.perform parser).after.trace = parser.trace)
    (herror : ∀ {error after},
      operation.perform parser = .failed error after →
        error.position = after.lookahead.position
          ∧ error.location = .ofToken after.lookahead) :
    operation.MovesFrom parser source place place where
  forward := Nat.le_refl place
  isAt := hat.congr hcurrent hwindow
  consumes := by
    refine ⟨[], hnothing, ?_, fun _ => ?_⟩
    · rw [List.append_nil, Parser.accepted, htrace, Parser.accepted]
    · rw [TokenSource.between, Nat.sub_self, TokenSource.take]
  error := herror
  reject := eq_of_accept_failed

/-- An operation that has an answer at once. -/
theorem MovesFrom.answer {operation : Operation α} {value : α}
    (hat : parser.IsAt source place)
    (hnothing : operation.Consumes parser [])
    (hdone : operation.perform parser = .done value parser) :
    operation.MovesFrom parser source place place := by
  refine .still hat hnothing ?_ ?_ ?_ ?_
  · rw [hdone]
    rfl
  · rw [hdone]
    rfl
  · rw [hdone]
    rfl
  · intro error after hfailed
    rw [hdone] at hfailed
    cases hfailed

/-- Going deeper changes the depth alone, whether it fails or not. -/
theorem descend_cases (parser : Parser) :
    parser.descend = .done () parser.deeper
      ∨ parser.descend = .failed
        (.atToken (.nestingTooDeep parser.limit) parser.lookahead)
        parser.deeper := by
  unfold Parser.descend
  split
  · exact .inl rfl
  · exact .inr rfl

theorem movesFrom_descend (hat : parser.IsAt source place) :
    Operation.descend.MovesFrom parser source place place := by
  have hafter : (Operation.descend.perform parser).after
      = parser.deeper := by
    rcases descend_cases parser with hcase | hcase <;>
      rw [perform, hcase, Outcome.after]
  refine .still hat rfl ?_ ?_ ?_ ?_
  · rw [hafter]
    rfl
  · rw [hafter]
    rfl
  · rw [hafter]
    rfl
  · intro error after hfailed
    rcases descend_cases parser with hcase | hcase
    · rw [perform, hcase] at hfailed
      cases hfailed
    · rw [perform, hcase] at hfailed
      cases hfailed
      exact ⟨rfl, rfl⟩

theorem movesFrom_advance (hat : parser.IsAt source place) :
    Operation.advance.MovesFrom parser source place (place + 1) where
  forward := Nat.le_succ place
  isAt := hat.advance
  consumes := by
    refine ⟨[], rfl, ?_, fun hother => ?_⟩
    · rw [List.append_nil]
      rfl
    · cases hother
  error hfailed := by cases hfailed
  reject := eq_of_accept_failed

theorem movesFrom_accept (hat : parser.IsAt source place)
    (kinds : List Kind) :
    ∃ reached, (Operation.accept kinds).MovesFrom parser source place
      reached := by
  have hconsumes : (Operation.accept kinds).Consumes parser
    (if parser.peekIsOneOf kinds then [parser.lookahead] else []) := rfl
  rcases accept_cases parser kinds with ⟨hpeek, hcase⟩ | ⟨hpeek, hcase⟩
  · refine ⟨place + 1, Nat.le_succ place, ?_, ?_, ?_, eq_of_accept_failed⟩
    · rw [perform, hcase]
      exact hat.advance.mark _
    · refine ⟨_, hconsumes, ?_, fun _ => ?_⟩
      · rw [hpeek, perform, hcase]
        exact parser.advance.accepted_mark _
      · rw [hpeek, TokenSource.between, Nat.add_sub_cancel_left,
          hat.lookahead]
        rfl
    · intro error after hfailed
      rw [perform, hcase] at hfailed
      cases hfailed
  · rw [hpeek] at hconsumes
    refine ⟨place, .still hat hconsumes ?_ ?_ ?_ ?_⟩
    · rw [perform, hcase]
      rfl
    · rw [perform, hcase]
      rfl
    · rw [perform, hcase]
      rfl
    · intro error after hfailed
      rw [perform, hcase] at hfailed
      cases hfailed
      exact ⟨rfl, rfl⟩

theorem movesFrom_recognize (hat : parser.IsAt source place)
    (owner : String) (piece : Piece α) :
    ∃ reached, (Operation.recognize owner piece).MovesFrom parser source
      place reached := by
  obtain ⟨tokens, hruns⟩ :=
    Recognizer.runs_run (piece.recognizer owner) parser
  obtain ⟨hafter, htokens⟩ := hruns.isAt hat
  refine ⟨place + tokens.length, Nat.le_add_right _ _, hafter,
    ⟨tokens, hruns, hruns.accepted_eq, fun _ => ?_⟩, ?_,
    eq_of_accept_failed⟩
  · rw [TokenSource.between, Nat.add_sub_cancel_left]
    exact htokens
  · intro error after hfailed
    obtain ⟨-, herror⟩ := hruns.stalls hfailed
    rw [herror]
    exact ⟨rfl, rfl⟩

/-- Every operation goes on from where the window stands. -/
theorem exists_movesFrom (operation : Operation α)
    (hat : parser.IsAt source place) :
    ∃ reached, operation.MovesFrom parser source place reached := by
  cases operation with
  | current | lookahead | peek | peekIs | peekIsOneOf | currentIs =>
    exact ⟨place, .answer hat rfl rfl⟩
  | advance => exact ⟨place + 1, movesFrom_advance hat⟩
  | accept kinds => exact movesFrom_accept hat kinds
  | descend => exact ⟨place, movesFrom_descend hat⟩
  | ascend =>
    refine ⟨place, .still hat rfl rfl rfl rfl ?_⟩
    intro error after hfailed
    cases hfailed
  | recognize owner piece => exact movesFrom_recognize hat owner piece

/-- An operation moves over one token for each that it adds to the trace,
or over one that it does not add. -/
theorem MovesFrom.reached_eq {operation : Operation α} {reached : Nat}
    (h : operation.MovesFrom parser source place reached)
    (hother : operation.isAdvance = false) :
    reached + parser.accepted.length
      = place + (operation.perform parser).after.accepted.length := by
  obtain ⟨tokens, -, haccepted, htokens⟩ := h.consumes
  have hlength : tokens.length = reached - place := by
    rw [htokens hother, TokenSource.between, TokenSource.length_take]
  have hforward := h.forward
  rw [haccepted, List.length_append]
  omega

end Operation

-- ======================================================== whole sessions

namespace Parser

/-- How many tokens of the source have been passed over after a session:
one for each `advance`, and one for each terminal of the trace. -/
def place (source : TokenSource) (limit : Nat)
    (session : List AnyOperation) : Nat :=
  session.countP (·.2.isAdvance)
    + ((start source limit).afterSession session).accepted.length

variable {source : TokenSource} {limit : Nat}

theorem place_nil : place source limit [] = 0 := rfl

theorem afterSession_append_singleton (parser : Parser)
    (earlier : List AnyOperation) {α : Type} (operation : Operation α) :
    parser.afterSession (earlier ++ [⟨α, operation⟩])
      = (operation.perform (parser.afterSession earlier)).after :=
  List.foldl_append

theorem place_append_singleton (earlier : List AnyOperation) {α : Type}
    (operation : Operation α) :
    place source limit (earlier ++ [⟨α, operation⟩])
      = earlier.countP (·.2.isAdvance) + (if operation.isAdvance then 1 else 0)
        + (operation.perform ((start source limit).afterSession earlier)
            ).after.accepted.length := by
  rw [place, afterSession_append_singleton, List.countP_append,
    List.countP_singleton]

/-- One operation more, when the window has been where it should. -/
theorem movesFrom_of_isAt {earlier : List AnyOperation}
    (hat : ((start source limit).afterSession earlier).IsAt source
      (place source limit earlier))
    {α : Type} (operation : Operation α) :
    operation.MovesFrom ((start source limit).afterSession earlier) source
      (place source limit earlier)
      (place source limit (earlier ++ [⟨α, operation⟩])) := by
  rw [place_append_singleton]
  cases hother : operation.isAdvance with
  | true =>
    cases operation with
    | advance =>
      have hreached := Operation.movesFrom_advance hat
      rw [place, Nat.add_right_comm] at hreached
      exact hreached
    | _ => cases hother
  | false =>
    obtain ⟨reached, hmoves⟩ := Operation.exists_movesFrom operation hat
    have hreached := hmoves.reached_eq hother
    rw [place, Nat.add_right_comm] at hreached
    rw [if_neg Bool.false_ne_true, Nat.add_zero,
      ← Nat.add_right_cancel hreached]
    exact hmoves

/-- By induction on the session, the last operation of which is taken
off. -/
theorem isAt_place (source : TokenSource) (limit : Nat)
    (session : List AnyOperation) :
    ((start source limit).afterSession session).IsAt source
      (place source limit session) := by
  induction session using List.reverseRecOn with
  | nil => exact .start source limit
  | append_singleton earlier last ih =>
    rw [afterSession_append_singleton]
    exact (movesFrom_of_isAt ih last.2).isAt

/-- What the operations of a session consume, one after the other. -/
inductive Consumed (parser : Parser) :
    List AnyOperation → List Token → Prop
  | nothing : Consumed parser [] []
  | more {earlier : List AnyOperation} {consumed tokens : List Token}
    {α : Type} {operation : Operation α}
    (h : Consumed parser earlier consumed)
    (hnext : operation.Consumes (parser.afterSession earlier) tokens) :
    Consumed parser (earlier ++ [⟨α, operation⟩]) (consumed ++ tokens)

/-- The terminals of the trace are the tokens that were consumed. -/
theorem consumed_accepted (source : TokenSource) (limit : Nat)
    (session : List AnyOperation) :
    (start source limit).Consumed session
      ((start source limit).afterSession session).accepted := by
  induction session using List.reverseRecOn with
  | nil => exact .nothing
  | append_singleton earlier last ih =>
    have hmoves := movesFrom_of_isAt (isAt_place source limit earlier) last.2
    obtain ⟨tokens, hconsumes, haccepted, -⟩ := hmoves.consumes
    rw [afterSession_append_singleton, haccepted]
    exact ih.more hconsumes

/-- At every moment of a session the window stands at one place of the
source, at the first token when the session starts, and no operation moves
it back. The terminals of the trace are the tokens consumed so far, and an
operation goes on from there: what it consumes is added to them, and it is
what the window moves over. -/
theorem movesFrom_place (source : TokenSource) (limit : Nat)
    (earlier : List AnyOperation) {α : Type} (operation : Operation α) :
    place source limit [] = 0
      ∧ ((start source limit).afterSession earlier).IsAt source
          (place source limit earlier)
      ∧ (start source limit).Consumed earlier
          ((start source limit).afterSession earlier).accepted
      ∧ operation.MovesFrom ((start source limit).afterSession earlier)
          source (place source limit earlier)
          (place source limit (earlier ++ [⟨α, operation⟩])) :=
  have hat := isAt_place source limit earlier
  ⟨place_nil, hat, consumed_accepted source limit earlier,
    movesFrom_of_isAt hat operation⟩

end Parser

end JackSyntax
