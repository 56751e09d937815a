/-
Scanning loses nothing. The calls for the next token take the segments of
the text in their order, each call as many as are skipped and one that
reads as a token, which starts where all segments before it end. Once
they are used up, each call yields the end of input there.

Calls are counted by `Scanner.afterCalls`. The induction is on the
segments before the one in question: a segment that is skipped leaves
the count of calls as it is, one that is read uses up a call.
-/
import JackSyntax.Scan.Scanner
import JackSyntax.Proofs.Scan.Segmentation

namespace JackSyntax

-- ========================================================== positions

/-- Where a text ends: its lines are one more than its newlines, its
columns one more than the characters after the last of them. -/
def Position.endOf (text : List Char) : Position :=
  ⟨1 + text.count '\n', 1 + (text.reverse.takeWhile (· != '\n')).length⟩

/-- Stepping over a text from its start leads to where it ends. -/
theorem Position.advance_start (text : List Char) :
    start.advance text = endOf text := by
  have hreverse : ∀ reversed : List Char,
      start.advance reversed.reverse = endOf reversed.reverse := by
    intro reversed
    induction reversed with
    | nil => rfl
    | cons c cs ih =>
      rw [List.reverse_cons, advance_append, ih]
      show (endOf cs.reverse).step c = _
      by_cases hline : c = '\n'
      · subst hline
        simp [endOf, step, Nat.add_assoc]
      · simp [endOf, step, hline, Nat.add_comm]
  rw [← text.reverse_reverse]
  exact hreverse text.reverse

-- =========================================================== the calls

namespace Scanner

open Segment

/-- The scanner after so many calls for the next token. -/
def afterCalls : (calls : Nat) → Scanner → Scanner
  | 0, scanner => scanner
  | calls + 1, scanner => afterCalls calls scanner.next.2

/-- A call takes one step, and another call if that was skipped. -/
theorem next_eq (scanner : Scanner) :
    scanner.next = match scanner.step? with
      | none => (.eof scanner.position, scanner)
      | some (some token, after) => (token, after)
      | some (none, after) => after.next := by
  rw [next]
  split <;> rename_i hstep <;> rw [hstep]

/-- Where the first step skips, the calls are those after it. -/
theorem next_afterCalls_of_skipped {scanner after : Scanner}
    (h : scanner.step? = some (none, after)) (calls : Nat) :
    (afterCalls calls scanner).next = (afterCalls calls after).next := by
  have hnext : scanner.next = after.next := by rw [next_eq, h]
  cases calls with
  | zero => exact hnext
  | succ calls => rw [afterCalls, afterCalls, hnext]

/-- Where the first step reads a token, it uses up a call. -/
theorem afterCalls_succ_of_read {scanner after : Scanner} {token : Token}
    (h : scanner.step? = some (some token, after)) (calls : Nat) :
    afterCalls (calls + 1) scanner = afterCalls calls after := by
  rw [afterCalls, next_eq, h]

/-- At the end of the text each call is the same. -/
theorem next_afterCalls_of_nil (position : Position) (calls : Nat) :
    (afterCalls calls ⟨[], position⟩).next
      = (.eof position, ⟨[], position⟩) := by
  have hnext : (⟨[], position⟩ : Scanner).next
      = (.eof position, ⟨[], position⟩) := by
    rw [next_eq]
    rfl
  induction calls with
  | zero => exact hnext
  | succ calls ih => rw [afterCalls, hnext, ih]

/-- A step goes past the first segment. -/
theorem step?_of_cutAll {scanner : Scanner} {segment : Segment}
    {segments : List Segment}
    (h : cutAll scanner.rest = segment :: segments) :
    scanner.step? = some
      (segment.reading?.map fun (kind, value) =>
        ⟨kind, String.ofList value, scanner.position⟩,
      ⟨texts segments, scanner.position.advance segment.text⟩) := by
  obtain ⟨c, cs, hrest, hcut, -⟩ := cutAll_eq_cons h
  simp only [step?, hrest, hcut]

/-- What the segments read as, in their order. -/
def readings (segments : List Segment) : List (Kind × List Char) :=
  segments.filterMap reading?

/-- A segment that reads as a token is taken by the call for it, of which
there is one for each such segment before. -/
theorem next_afterCalls {scanner : Scanner} {before after : List Segment}
    {segment : Segment} {kind : Kind} {value : List Char}
    (h : cutAll scanner.rest = before ++ segment :: after)
    (hreading : segment.reading? = some (kind, value)) :
    (afterCalls (readings before).length scanner).next
      = (⟨kind, String.ofList value,
          scanner.position.advance (texts before)⟩,
        ⟨texts after,
          scanner.position.advance (texts before ++ segment.text)⟩) := by
  induction before generalizing scanner with
  | nil =>
    have hstep := step?_of_cutAll h
    rw [hreading] at hstep
    show scanner.next = _
    rw [next_eq, hstep]
    rfl
  | cons first before ih =>
    have hstep := step?_of_cutAll h
    obtain ⟨_, _, -, -, hrest⟩ := cutAll_eq_cons h
    have hcalls := @ih ⟨_, scanner.position.advance first.text⟩ hrest
    rw [texts_cons, List.append_assoc, Position.advance_append,
      Position.advance_append]
    cases hfirst : first.reading? with
    | none =>
      rw [hfirst] at hstep
      rw [readings, List.filterMap_cons_none hfirst,
        next_afterCalls_of_skipped hstep]
      exact hcalls
    | some reading =>
      rw [hfirst] at hstep
      rw [readings, List.filterMap_cons_some hfirst, List.length_cons,
        afterCalls_succ_of_read hstep]
      exact hcalls

/-- Once as many calls have been made as segments read as tokens, the
calls yield the end of input. -/
theorem next_afterCalls_of_length_le {scanner : Scanner}
    {segments : List Segment} {calls : Nat}
    (h : cutAll scanner.rest = segments)
    (hcalls : (readings segments).length ≤ calls) :
    (afterCalls calls scanner).next
      = (.eof (scanner.position.advance scanner.rest),
        ⟨[], scanner.position.advance scanner.rest⟩) := by
  induction segments generalizing scanner calls with
  | nil =>
    have hrest : scanner.rest = [] := by
      rw [← texts_cutAll scanner.rest, h, texts_nil]
    obtain ⟨rest, position⟩ := scanner
    obtain rfl : rest = [] := hrest
    exact next_afterCalls_of_nil position calls
  | cons first segments ih =>
    have hstep := step?_of_cutAll h
    obtain ⟨_, _, -, -, hrest⟩ := cutAll_eq_cons h
    rw [← texts_cutAll scanner.rest, h, texts_cons,
      Position.advance_append]
    cases hfirst : first.reading? with
    | none =>
      rw [hfirst] at hstep
      rw [readings, List.filterMap_cons_none hfirst] at hcalls
      rw [next_afterCalls_of_skipped hstep]
      exact @ih ⟨_, scanner.position.advance first.text⟩ _ hrest hcalls
    | some reading =>
      rw [hfirst] at hstep
      rw [readings, List.filterMap_cons_some hfirst, List.length_cons]
        at hcalls
      obtain ⟨fewer, rfl⟩ := Nat.exists_eq_add_one_of_ne_zero
        (Nat.ne_of_gt (Nat.lt_of_lt_of_le (Nat.succ_pos _) hcalls))
      rw [afterCalls_succ_of_read hstep]
      exact @ih ⟨_, scanner.position.advance first.text⟩ _ hrest
        (Nat.le_of_succ_le_succ hcalls)

end Scanner

-- ======================================================= the whole text

/-- The calls for the next token take a text apart into the segments and
then yield the end of input for good. -/
structure IsScannedAs (source : String) (segments : List Segment) :
    Prop where
  /-- The segments make up the text, one right after the other. -/
  whole : Segment.texts segments = source.toList
  nonempty : ∀ segment ∈ segments, segment.text ≠ []
  /-- Each segment has one of the forms that are skipped or read. -/
  isCut {before after : List Segment} {segment : Segment} :
    segments = before ++ segment :: after →
      segment.IsCut (Segment.texts after)
  /-- Each step goes past one segment, and yields a token if the segment
  reads as one. -/
  step {before after : List Segment} {segment : Segment} :
    segments = before ++ segment :: after →
      Scanner.step? ⟨Segment.texts (segment :: after),
          .endOf (Segment.texts before)⟩
        = some (segment.reading?.map fun (kind, value) =>
            ⟨kind, String.ofList value, .endOf (Segment.texts before)⟩,
          ⟨Segment.texts after,
            .endOf (Segment.texts before ++ segment.text)⟩)
  /-- A segment that reads as a token is read by one call, which stops
  where the segment ends. -/
  call {before after : List Segment} {segment : Segment} {kind : Kind}
    {value : List Char} : segments = before ++ segment :: after →
      segment.reading? = some (kind, value) →
        (Scanner.afterCalls (Scanner.readings before).length
            (.ofText source)).next
          = (⟨kind, String.ofList value,
              .endOf (Segment.texts before)⟩,
            ⟨Segment.texts after,
              .endOf (Segment.texts before ++ segment.text)⟩)
  /-- Later calls stay at the end of the text. -/
  atEnd {calls : Nat} : (Scanner.readings segments).length ≤ calls →
    (Scanner.afterCalls calls (.ofText source)).next
      = (.eof (.endOf source.toList), ⟨[], .endOf source.toList⟩)

/-- Every text is scanned as the segments that it is cut into. -/
theorem isScannedAs_cutAll (source : String) :
    IsScannedAs source (Segment.cutAll source.toList) where
  whole := Segment.texts_cutAll source.toList
  nonempty _ hsegment := Segment.text_ne_nil_of_mem_cutAll hsegment
  isCut hsplit := Segment.isCut_of_cutAll hsplit
  step hsplit := by
    rw [← Position.advance_start (_ ++ _), Position.advance_append,
      Position.advance_start]
    exact Scanner.step?_of_cutAll (Segment.cutAll_texts hsplit)
  call hsplit hreading := by
    rw [← Position.advance_start, ← Position.advance_start]
    exact @Scanner.next_afterCalls (.ofText source) _ _ _ _ _ hsplit hreading
  atEnd hcalls := by
    rw [← Position.advance_start]
    exact @Scanner.next_afterCalls_of_length_le (.ofText source) _ _ rfl hcalls

end JackSyntax
