/-
What an attempt leaves behind. Whatever state a parser is in, to recognize
something only adds to its trace and its records. If it succeeds, what was
added to the trace is a row of trees, and the depth is what it was. If it
fails, the rules that it was in stay open, one inside the other, and the
depth stays up by the counted ones among them. A rule that is too deep is
counted as well, though it was not opened.

A run that fails has passed over some parts and then stands in one that
fails inside, and so on down to the token that is rejected or the rule that
is too deep (`Runs.leavesOpen`). What was passed over is closed again, so
only the parts that it stands in count.
-/
import JackSyntax.Proofs.Parse.Limit
import JackSyntax.Proofs.Parse.Nesting
import JackSyntax.Proofs.Parse.Session

namespace JackSyntax

variable {α : Type}

-- ============================================================ rules left open

/-- Rules that are open further out stay open. -/
theorem openAfter_outside {opened now : List Rule} {entries : List Entry}
    (h : openAfter opened entries = some now) (outside : List Rule) :
    openAfter (opened ++ outside) entries = some (now ++ outside) := by
  induction entries generalizing opened with
  | nil =>
    cases h
    rfl
  | cons entry entries ih =>
    cases entry with
    | enter rule => exact ih h
    | terminal token => exact ih h
    | exit rule =>
      cases opened with
      | nil => cases h
      | cons innermost opened =>
        simp only [List.cons_append, openAfter] at h ⊢
        split at h
        · rename_i heq
          rw [if_pos heq]
          exact ih h
        · cases h

/-- The reason is that a rule would be too deep. -/
def Reason.isOfNesting : Reason → Bool
  | .nestingTooDeep _ => true
  | _ => false

namespace Parser

/-- A failure has left the given rules open, innermost first, and nothing
was done but to add to the trace and to the notes. -/
structure LeavesOpen (parser : Parser) (error : SyntaxError)
    (opened : List Rule) (after : Parser) : Prop where
  trace : ∃ added, after.trace.toList = parser.trace.toList ++ added
    ∧ openAfter [] added = some opened
  notes : parser.notes.toList <+: after.notes.toList
  /-- A rule that could not be opened was counted. -/
  depth : after.depth = parser.depth + opened.countP Rule.isCounted
    + if error.reason.isOfNesting then 1 else 0

namespace LeavesOpen

variable {parser middle entered after : Parser} {error : SyntaxError}
  {opened : List Rule}

/-- The next token is rejected. -/
theorem reject {reason : Reason} (h : reason.isOfNesting = false) :
    parser.LeavesOpen (.atToken reason parser.lookahead) [] parser where
  trace := ⟨[], (List.append_nil _).symm, rfl⟩
  notes := List.prefix_rfl
  depth := by
    have hreason : (SyntaxError.atToken reason parser.lookahead).reason
      = reason := rfl
    rw [hreason, h]
    rfl

/-- A part cannot be opened. -/
theorem shut {part : Part}
    (h : parser.openPart part = .failed error after) :
    parser.LeavesOpen error [] after := by
  obtain ⟨-, -, rfl, rfl⟩ := openPart_failed h
  exact ⟨⟨[], (List.append_nil _).symm, rfl⟩, List.prefix_rfl, rfl⟩

/-- What was passed over before does not stay open. -/
theorem passes {forest : Forest} {notes : List Note}
    (h : parser.Passes forest notes middle)
    (hrest : middle.LeavesOpen error opened after) :
    parser.LeavesOpen error opened after where
  trace := by
    obtain ⟨added, htrace, hopened⟩ := hrest.trace
    refine ⟨forest.entries ++ added, ?_, ?_⟩
    · rw [htrace, h.trace, List.append_assoc]
    · rw [openAfter_append (openAfter_entries forest []), hopened]
  notes := by
    have hnotes := hrest.notes
    rw [h.notes] at hnotes
    exact (List.prefix_append _ _).trans hnotes
  depth := by rw [hrest.depth, h.depth]

/-- The rule of a part stays open if the part fails inside. -/
theorem stuck {part : Part} (hopen : parser.openPart part = .done () entered)
    (h : entered.LeavesOpen error opened after) :
    parser.LeavesOpen error (opened ++ part.opens) after := by
  obtain ⟨added, htrace, hopened⟩ := h.trace
  have hnotes := h.notes
  have hdepth := h.depth
  cases part with
  | many item =>
    cases hopen
    rw [Part.opens, List.append_nil]
    exact h
  | rule rule =>
    obtain ⟨-, rfl⟩ := enter_done hopen
    refine ⟨⟨.enter rule :: added, ?_, openAfter_outside hopened [rule]⟩,
      hnotes, ?_⟩
    · rw [htrace, Trace.toList_push, List.append_assoc]
      rfl
    · rw [Part.opens, List.countP_append, List.countP_singleton, hdepth]
      simp only
      omega

end LeavesOpen

end Parser

-- ============================================================== along a run

/-- A run that fails leaves the rules open that it was in. -/
theorem Recognizer.Runs.leavesOpen {recognizer : Recognizer α}
    {parser after : Parser} {tokens : List Token} {outcome : Outcome α}
    {error : SyntaxError} (h : recognizer.Runs parser tokens outcome)
    (huses : recognizer.Uses SparesNesting)
    (hfailed : outcome = .failed error after) :
    ∃ opened, parser.LeavesOpen error opened after := by
  induction h generalizing after with
  | done value parser => cases hfailed
  | look _ ih => exact ih (huses _) hfailed
  | accept _ _ ih =>
    obtain ⟨opened, hrest⟩ := ih (huses _) hfailed
    exact ⟨opened, .passes (.leaf (.refl _)) hrest⟩
  | reject _ =>
    cases hfailed
    exact ⟨[], .reject rfl⟩
  | refuse reason parser =>
    cases hfailed
    refine ⟨[], .reject ?_⟩
    cases reason with
    | nestingTooDeep deep => exact absurd rfl (huses deep)
    | _ => rfl
  | note _ ih =>
    obtain ⟨opened, hrest⟩ := ih huses.2 hfailed
    exact ⟨opened, .passes (.note (.refl _)) hrest⟩
  | shut hopen =>
    cases hfailed
    exact ⟨[], .shut hopen⟩
  | @stuck _ owner part _ _ _ _ _ _ hopen _ ih =>
    cases hfailed
    obtain ⟨opened, hinside⟩ := ih (uses_sparesNesting owner part) rfl
    exact ⟨opened ++ part.opens, .stuck hopen hinside⟩
  | through hopen hbody _ _ ihNext =>
    obtain ⟨_, _, -, -, hpasses⟩ := hbody.passes derived_body rfl
    obtain ⟨opened, hrest⟩ := ihNext (huses.2 _) hfailed
    exact ⟨opened, .passes (.part hopen hpasses) hrest⟩

-- ======================================================= pieces of the grammar

/-- The trees that a piece adds to a trace: one if it is a rule, and
otherwise a row of them. -/
def Piece.Adds : Piece α → Forest → Prop
  | .rule named, forest => ∃ inside, forest = .node named inside .nil
  | _, _ => True

/-- What was added to the trace is in balance with the depth. After a
success it is complete and the depth is as before; after a failure some
rules are left open, and the depth is greater by the counted ones. -/
def Outcome.IsBalanced (parser : Parser) (piece : Piece α)
    (added : List Entry) : Outcome α → Prop
  | .done _ after =>
    after.depth = parser.depth
      ∧ ∃ forest, piece.Adds forest ∧ added = forest.entries
  | .failed error after =>
    ∃ opened, openAfter [] added = some opened
      ∧ after.depth = parser.depth + opened.countP Rule.isCounted
        + if error.reason.isOfNesting then 1 else 0

namespace Recognizer

theorem uses_piece (owner : String) (piece : Piece α) :
    (piece.recognizer owner).Uses SparesNesting := by
  cases piece with
  | rule named => exact .rule trivial
  | type => exact uses_type
  | names => exact uses_names owner trivial
  | condition => exact uses_condition owner trivial
  | block => exact uses_block owner trivial
  | statement =>
    exact (uses_statement owner).mono fun _ => sparesNesting_of_does
  | subroutineCall first =>
    exact uses_subroutineCall owner first trivial fun _ => trivial

/-- The account of the parts that says only which tree is a part's own. -/
def Wrapped : Account :=
  fun _ part forest _ _ => ∃ inside, forest = part.wrap inside

theorem wrapped_body (owner : String) (part : Part) (inside : Forest)
    (notes : List Note) (value : part.Value)
    (_ : (body owner part).Builds Wrapped inside notes value) :
    Wrapped owner part (part.wrap inside) notes value :=
  ⟨inside, rfl⟩

theorem adds_of_builds {owner : String} {piece : Piece α} {forest : Forest}
    {notes : List Note} {value : α}
    (h : (piece.recognizer owner).Builds Wrapped forest notes value) :
    piece.Adds forest := by
  cases piece with
  | rule named =>
    obtain ⟨_, _, _, _, _, rfl, -, ⟨inside, rfl⟩, rfl, -, -⟩ := h
    exact ⟨inside, Forest.append_nil _⟩
  | _ => trivial

end Recognizer

/-- Whatever a parser has been through, to recognize a piece of the grammar
only adds to its records and to its trace, and what is added to the trace
is in balance with the depth. -/
theorem isBalanced_recognize (parser : Parser) (owner : String)
    (piece : Piece α) :
    let outcome := parser.run (piece.recognizer owner)
    parser.subroutines <+: outcome.after.subroutines
      ∧ parser.calls <+: outcome.after.calls
      ∧ ∃ added, outcome.after.trace.toList = parser.trace.toList ++ added
        ∧ outcome.IsBalanced parser piece added := by
  obtain ⟨tokens, hruns⟩ :=
    Recognizer.runs_run (piece.recognizer owner) parser
  generalize parser.run (piece.recognizer owner) = outcome at hruns ⊢
  have hrecords : parser.notes.toList <+: outcome.after.notes.toList →
      parser.subroutines <+: outcome.after.subroutines
        ∧ parser.calls <+: outcome.after.calls :=
    fun h => ⟨h.filterMap _, h.filterMap _⟩
  cases outcome with
  | done value after =>
    obtain ⟨forest, notes, hbuilds, -, hpasses⟩ :=
      hruns.passes Recognizer.wrapped_body rfl
    obtain ⟨hsubroutines, hcalls⟩ := hrecords ⟨notes, hpasses.notes.symm⟩
    exact ⟨hsubroutines, hcalls, forest.entries, hpasses.trace,
      hpasses.depth, forest, Recognizer.adds_of_builds hbuilds, rfl⟩
  | failed error after =>
    obtain ⟨opened, hopened⟩ :=
      hruns.leavesOpen (Recognizer.uses_piece owner piece) rfl
    obtain ⟨hsubroutines, hcalls⟩ := hrecords hopened.notes
    obtain ⟨added, htrace, hadded⟩ := hopened.trace
    exact ⟨hsubroutines, hcalls, added, htrace, opened, hadded,
      hopened.depth⟩

end JackSyntax
