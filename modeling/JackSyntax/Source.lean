/-
Where tokens come from: a text that is scanned on demand, or a list of
tokens that are already there. Either way a source never runs dry; past
its last token it yields the end of input again and again.

Tokens are pulled one at a time, so what a reader of the source knows
at any moment depends only on what it has pulled.
-/
import JackSyntax.Scan.Scanner

namespace JackSyntax

-- ===================================================== token queues

/-- Tokens in the order in which they will be handed out, and the place
where the last one handed out ended. -/
structure TokenQueue where
  tokens : List Token
  last : Position
  deriving DecidableEq, Repr

namespace TokenQueue

def ofList (tokens : List Token) : TokenQueue := ⟨tokens, .start⟩

/-- The next token and the queue after it. An end-of-input token stays at
the head for good. An empty queue makes one up, at the place where the
last token ended if its value was all of its text. -/
def next (queue : TokenQueue) : Token × TokenQueue :=
  match queue.tokens with
  | [] => (.eof queue.last, queue)
  | token :: tokens =>
    if token.kind = .eof then (token, queue)
    else
      let column := token.position.column + token.value.length
      (token, ⟨tokens, ⟨token.position.line, column⟩⟩)

/-- Handing out a token never lengthens the queue. -/
theorem length_next_le (queue : TokenQueue) :
    queue.next.2.tokens.length ≤ queue.tokens.length := by
  unfold next
  split
  · exact Nat.le_refl _
  · rename_i token tokens hqueue
    by_cases heof : token.kind = .eof <;> simp [heof, hqueue]

/-- Handing out a token that is not the end of input shortens the
queue. -/
theorem length_next_lt (queue : TokenQueue)
    (h : queue.next.1.kind ≠ .eof) :
    queue.next.2.tokens.length < queue.tokens.length := by
  unfold next at h ⊢
  split at h
  · exact absurd rfl h
  · rename_i token tokens hqueue
    by_cases heof : token.kind = .eof
    · rw [if_pos heof] at h
      exact absurd heof h
    · simp [heof, hqueue]

end TokenQueue

-- ==================================================== token sources

/-- A text to scan or a list of tokens to hand out. -/
inductive TokenSource
  | text (scanner : Scanner)
  | list (queue : TokenQueue)
  deriving DecidableEq, Repr

namespace TokenSource

def ofText (source : String) : TokenSource := .text (.ofText source)

def ofTokens (tokens : List Token) : TokenSource := .list (.ofList tokens)

/-- The next token and the source after it. -/
def next : TokenSource → Token × TokenSource
  | .text scanner =>
    let (token, scanner) := scanner.next
    (token, .text scanner)
  | .list queue =>
    let (token, queue) := queue.next
    (token, .list queue)

/-- The first tokens of a source, as many as asked for. -/
def take : (count : Nat) → TokenSource → List Token
  | 0, _ => []
  | count + 1, source => source.next.1 :: take count source.next.2

/-- A bound on the tokens still to come before the end of input. -/
def remaining : TokenSource → Nat
  | .text scanner => scanner.rest.length
  | .list queue => queue.tokens.length

/-- Pulling a token never raises the bound. -/
theorem remaining_next_le (source : TokenSource) :
    source.next.2.remaining ≤ source.remaining := by
  cases source with
  | text scanner => exact scanner.length_next_le
  | list queue => exact queue.length_next_le

/-- Pulling a token that is not the end of input lowers the bound. -/
theorem remaining_next_lt (source : TokenSource)
    (h : source.next.1.kind ≠ .eof) :
    source.next.2.remaining < source.remaining := by
  cases source with
  | text scanner => exact scanner.length_next_lt h
  | list queue => exact queue.length_next_lt h

/-- All tokens of a source before the end of input. -/
def tokens (source : TokenSource) : List Token :=
  if _h : source.next.1.kind = .eof then []
  else source.next.1 :: tokens source.next.2
termination_by source.remaining
decreasing_by exact remaining_next_lt source _h

theorem tokens_of_eof {source : TokenSource}
    (h : source.next.1.kind = .eof) : source.tokens = [] := by
  rw [tokens, dif_pos h]

theorem tokens_of_ne_eof {source : TokenSource}
    (h : source.next.1.kind ≠ .eof) :
    source.tokens = source.next.1 :: source.next.2.tokens := by
  rw [tokens, dif_neg h]

/-- The tokens of a list are those before its first end of input. -/
theorem tokens_list (tokens : List Token) (last : Position) :
    (list ⟨tokens, last⟩).tokens = tokens.takeWhile (·.kind != .eof) := by
  induction tokens generalizing last with
  | nil => exact tokens_of_eof rfl
  | cons token tokens ih =>
    by_cases heof : token.kind = .eof
    · have hnext : (list ⟨token :: tokens, last⟩).next.1 = token := by
        simp [next, TokenQueue.next, heof]
      rw [tokens_of_eof (by rw [hnext, heof]), List.takeWhile_cons]
      simp [heof]
    · have hnext : (list ⟨token :: tokens, last⟩).next.1 = token := by
        simp [next, TokenQueue.next, heof]
      have hrest : (list ⟨token :: tokens, last⟩).next.2
          = list ⟨tokens, ⟨token.position.line,
              token.position.column + token.value.length⟩⟩ := by
        simp [next, TokenQueue.next, heof]
      rw [tokens_of_ne_eof (by rwa [hnext]), hnext, hrest, ih,
        List.takeWhile_cons]
      simp [heof]

end TokenSource

end JackSyntax
