/-
A source as a sequence. Whatever a source is made of, asking it again and
again yields its tokens one by one and then one end of input for good
(`TokenSource.take_eq`), so its tokens and its ending are all there is to
know of it.

A parser sees a beginning of that sequence: what was passed over since
the start and the token that is next make it up
(`Parser.cons_take_of_reaches`). For the parsing of a class this says what
was consumed and at which token of the source an error shows
(`exists_next_of_parse`).
-/
import JackSyntax.Proofs.Parse.Kinds
import JackSyntax.Proofs.Scan.Tokens

namespace JackSyntax

-- ================================================== the end of a source

/-- Once a scanner is at the end, each call is the same. -/
theorem Scanner.next_next_of_eof {scanner : Scanner}
    (h : scanner.next.1.kind = .eof) :
    scanner.next.2.next = scanner.next := by
  fun_induction next scanner with
  | case1 scanner hstep =>
    rw [next_eq, hstep]
  | case2 scanner token after hstep =>
    exact absurd h (step?_reads hstep).1
  | case3 scanner after hstep ih => exact ih h

namespace TokenQueue

theorem next_cons_of_eof {token : Token} (h : token.kind = .eof)
    (tokens : List Token) (last : Position) :
    (⟨token :: tokens, last⟩ : TokenQueue).next
      = (token, ⟨token :: tokens, last⟩) := if_pos h

theorem next_cons_of_ne_eof {token : Token} (h : token.kind ≠ .eof)
    (tokens : List Token) (last : Position) :
    (⟨token :: tokens, last⟩ : TokenQueue).next
      = (token, ⟨tokens, ⟨token.position.line,
          token.position.column + token.value.length⟩⟩) := if_neg h

/-- Once a queue is at its end, each call is the same. -/
theorem next_next_of_eof {queue : TokenQueue}
    (h : queue.next.1.kind = .eof) : queue.next.2.next = queue.next := by
  obtain ⟨tokens, last⟩ := queue
  cases tokens with
  | nil => rfl
  | cons token tokens =>
    by_cases heof : token.kind = .eof
    · rw [next_cons_of_eof heof]
      exact next_cons_of_eof heof tokens last
    · rw [next_cons_of_ne_eof heof] at h
      exact absurd h heof

end TokenQueue

namespace TokenSource

/-- Once a source is at its end, it stays there. -/
theorem next_next_of_eof {source : TokenSource}
    (h : source.next.1.kind = .eof) :
    source.next.2.next = source.next := by
  cases source with
  | text scanner =>
    have hstays := Scanner.next_next_of_eof h
    simp only [next, hstays]
  | list queue =>
    have hstays := TokenQueue.next_next_of_eof h
    simp only [next, hstays]

/-- The end of input that a source comes to after its tokens. -/
def ending (source : TokenSource) : Token :=
  if _h : source.next.1.kind = .eof then source.next.1
  else ending source.next.2
termination_by source.remaining
decreasing_by exact remaining_next_lt source _h

theorem ending_of_eof {source : TokenSource}
    (h : source.next.1.kind = .eof) : source.ending = source.next.1 := by
  rw [ending, dif_pos h]

theorem ending_of_ne_eof {source : TokenSource}
    (h : source.next.1.kind ≠ .eof) :
    source.ending = source.next.2.ending := by
  rw [ending, dif_neg h]

/-- The ending is an end of input. -/
theorem kind_ending (source : TokenSource) : source.ending.kind = .eof := by
  fun_induction ending source with
  | case1 source heof => exact heof
  | case2 source heof ih => exact ih

/-- No token of a source is an end of input. -/
theorem ne_eof_of_mem_tokens {source : TokenSource} {token : Token}
    (h : token ∈ source.tokens) : token.kind ≠ .eof := by
  fun_induction tokens source with
  | case1 source heof => cases h
  | case2 source heof ih =>
    rcases List.mem_cons.1 h with hfirst | hlater
    · rw [hfirst]
      exact heof
    · exact ih hlater

/-- A source hands out its tokens and then its ending for good. -/
theorem take_eq (source : TokenSource) (count : Nat) :
    source.take count
      = (source.tokens ++ List.replicate count source.ending).take count := by
  induction count generalizing source with
  | zero => rfl
  | succ count ih =>
    rw [take, ih]
    by_cases heof : source.next.1.kind = .eof
    · have hstays := next_next_of_eof heof
      have heof' : source.next.2.next.1.kind = .eof := by rwa [hstays]
      rw [tokens_of_eof heof, tokens_of_eof heof', ending_of_eof heof,
        ending_of_eof heof', hstays]
      simp [List.replicate_succ]
    · rw [tokens_of_ne_eof heof, ending_of_ne_eof heof, List.cons_append,
        List.take_succ_cons, List.take_append, List.take_append,
        List.take_replicate, List.take_replicate]
      congr 3
      omega

/-- Sources with the same tokens are the same for ever if they end in the
same way. -/
theorem take_eq_iff {source other : TokenSource}
    (h : source.tokens = other.tokens) :
    (∀ count, source.take count = other.take count)
      ↔ source.ending = other.ending := by
  constructor
  · intro htake
    have hafter := htake (source.tokens.length + 1)
    rw [take_eq, take_eq, ← h, List.take_length_add_append,
      List.take_length_add_append, List.append_cancel_left_eq] at hafter
    exact (List.cons.inj hafter).1
  · intro hending count
    rw [take_eq, take_eq, h, hending]

/-- Sources with the same tokens hand out tokens of the same kinds. -/
theorem alike_of_tokens_eq {source other : TokenSource}
    (h : source.tokens = other.tokens) : source.Alike other := by
  intro count
  rw [take_eq, take_eq, h, List.map_take, List.map_take, List.map_append,
    List.map_append, List.map_replicate, List.map_replicate, kind_ending,
    kind_ending]

-- ==================================================== lists and texts

/-- What is handed out first does not decide how a list ends, but for the
place that is kept of it. -/
theorem exists_ending_list_append {before : List Token}
    (hplain : ∀ token ∈ before, token.kind ≠ .eof) (tokens : List Token)
    (last : Position) :
    ∃ last', (list ⟨before ++ tokens, last⟩).ending
      = (list ⟨tokens, last'⟩).ending := by
  induction before generalizing last with
  | nil => exact ⟨last, rfl⟩
  | cons token before ih =>
    obtain ⟨hkind, hothers⟩ := List.forall_mem_cons.1 hplain
    have hnext := TokenQueue.next_cons_of_ne_eof hkind (before ++ tokens) last
    rw [List.cons_append, ending_of_ne_eof (by rwa [next, hnext]), next,
      hnext]
    exact ih hothers _

/-- The ending of a list that holds an end of input is the first one. -/
theorem ending_list {before rest : List Token} {eof : Token}
    (hplain : ∀ token ∈ before, token.kind ≠ .eof)
    (heof : eof.kind = .eof) (last : Position) :
    (list ⟨before ++ eof :: rest, last⟩).ending = eof := by
  obtain ⟨last', hending⟩ :=
    exists_ending_list_append hplain (eof :: rest) last
  have hnext : (list ⟨eof :: rest, last'⟩).next.1 = eof := by
    rw [next, TokenQueue.next_cons_of_eof heof]
  rw [hending, ending_of_eof (by rw [hnext, heof]), hnext]

/-- A list without an end of input ends as far after the place of its last
token as the value of that is long. -/
theorem ending_list_of_last {before : List Token} {token : Token}
    (hplain : ∀ other ∈ before ++ [token], other.kind ≠ .eof)
    (last : Position) :
    (list ⟨before ++ [token], last⟩).ending
      = .eof ⟨token.position.line,
          token.position.column + token.value.length⟩ := by
  obtain ⟨hbefore, htoken⟩ := List.forall_mem_append.1 hplain
  have hkind := htoken token (List.mem_singleton_self token)
  obtain ⟨last', hending⟩ := exists_ending_list_append hbefore [token] last
  have hnext := TokenQueue.next_cons_of_ne_eof hkind [] last'
  rw [hending, ending_of_ne_eof (by rwa [next, hnext]), next, hnext]
  exact ending_of_eof rfl

/-- A list has the tokens before its first end of input. -/
theorem tokens_ofTokens (tokens : List Token) :
    (ofTokens tokens).tokens = tokens.takeWhile (·.kind != .eof) :=
  tokens_list tokens .start

/-- Tokens in front of a list are handed out before those of the list. -/
theorem tokens_ofTokens_append {before : List Token}
    (hplain : ∀ token ∈ before, token.kind ≠ .eof) (rest : List Token) :
    (ofTokens (before ++ rest)).tokens = before ++ (ofTokens rest).tokens := by
  rw [tokens_ofTokens, tokens_ofTokens, List.takeWhile_append_of_pos]
  intro token htoken
  exact bne_iff_ne.2 (hplain token htoken)

/-- A list without an end of input hands out all its tokens. -/
theorem tokens_ofTokens_of_plain {tokens : List Token}
    (hplain : ∀ token ∈ tokens, token.kind ≠ .eof) :
    (ofTokens tokens).tokens = tokens := by
  rw [← tokens.append_nil, tokens_ofTokens_append hplain, tokens_ofTokens]
  rfl

/-- Lists that begin alike hand out the same for as long. -/
theorem take_list_congr {tokens tokens' : List Token} {count : Nat}
    (h : tokens.take count = tokens'.take count) (last : Position) :
    (list ⟨tokens, last⟩).take count = (list ⟨tokens', last⟩).take count := by
  induction count generalizing tokens tokens' last with
  | zero => rfl
  | succ count ih =>
    cases tokens with
    | nil =>
      obtain rfl : tokens' = [] := by simpa using h.symm
      rfl
    | cons token rest =>
      cases tokens' with
      | nil => cases h
      | cons token' rest' =>
        obtain ⟨rfl, hrest⟩ := List.cons.inj h
        rw [take, take]
        by_cases heof : token.kind = .eof
        · -- the end of input stays at the head of both
          have hshorter := congrArg (List.take count) h
          rw [List.take_take, List.take_take,
            Nat.min_eq_left (Nat.le_succ count)] at hshorter
          rw [next, TokenQueue.next_cons_of_eof heof, next,
            TokenQueue.next_cons_of_eof heof]
          exact congrArg _ (ih hshorter last)
        · rw [next, TokenQueue.next_cons_of_ne_eof heof, next,
            TokenQueue.next_cons_of_ne_eof heof]
          exact congrArg _ (ih hrest _)

/-- The source over a text ends where the text does. -/
theorem ending_text (scanner : Scanner) :
    (text scanner).ending
      = .eof (scanner.position.advance scanner.rest) := by
  fun_induction Scanner.tokens scanner with
  | case1 scanner hstep =>
    have hnext : scanner.next = (.eof scanner.position, scanner) := by
      rw [Scanner.next_eq, hstep]
    rw [ending_of_eof (by rw [next, hnext]; rfl), next, hnext,
      Scanner.rest_of_step?_eq_none hstep]
    rfl
  | case2 scanner token after hstep ih =>
    have hnext : scanner.next = (token, after) := by
      rw [Scanner.next_eq, hstep]
    have hkind : (text scanner).next.1.kind ≠ .eof := by
      rw [next, hnext]
      exact (Scanner.step?_reads hstep).1
    rw [ending_of_ne_eof hkind, next, hnext, ih,
      Scanner.advance_of_step? hstep]
  | case3 scanner after hstep ih =>
    have hnext : scanner.next = after.next := by
      rw [Scanner.next_eq, hstep]
    rw [Scanner.advance_of_step? hstep, ← ih, ending.eq_def (text scanner),
      ending.eq_def (text after)]
    simp only [next, hnext]
    rfl

/-- A text that is scanned beforehand has the tokens of the text. -/
theorem tokens_tokenize (source : String) :
    (ofTokens (tokenize source)).tokens = (ofText source).tokens := by
  have heof : (ofTokens [.eof (.endOf source.toList)]).tokens = [] :=
    tokens_of_eof rfl
  rw [tokenize_eq, tokens_ofTokens_append fun _ => ne_eof_of_mem_tokens, heof,
    List.append_nil]

/-- It needs no end of input for that. -/
theorem tokens_dropLast_tokenize (source : String) :
    (ofTokens (tokenize source).dropLast).tokens
      = (ofText source).tokens := by
  rw [tokenize_eq, List.dropLast_concat,
    tokens_ofTokens_of_plain fun _ => ne_eof_of_mem_tokens]

/-- With its end of input it also ends where the text does. -/
theorem ending_tokenize (source : String) :
    (ofTokens (tokenize source)).ending = (ofText source).ending := by
  have hlist : (ofTokens (tokenize source)).ending
      = .eof (.endOf source.toList) := by
    rw [tokenize_eq]
    exact ending_list (fun token htoken => ne_eof_of_mem_tokens htoken) rfl
      .start
  rw [hlist, ← Position.advance_start]
  exact (ending_text (.ofText source)).symm

end TokenSource

-- ============================================ what a parser sees of it

namespace Parser

/-- What is passed over, and the token that is next then, were ahead. -/
theorem cons_take_of_reaches {parser stop : Parser} {tokens : List Token}
    (h : parser.Reaches tokens stop) :
    parser.lookahead :: parser.source.take tokens.length
      = tokens ++ [stop.lookahead] := by
  induction tokens generalizing parser with
  | nil => rw [lookahead_eq_of_window h]; rfl
  | cons token tokens ih =>
    obtain ⟨rfl, htail⟩ := h
    rw [List.length_cons, TokenSource.take, List.cons_append]
    exact congrArg _ (ih htail)

end Parser

-- ======================================================= whole classes

/-- The tokens that parsing a class accepts, whether it succeeds or
fails. -/
def consumed (source : TokenSource) (limit : Nat) : List Token :=
  (Parser.start source limit).parseClass.after.accepted

/-- Parsing runs the rule of a class over the tokens that it consumes. -/
theorem exists_runs_consumed (source : TokenSource) (limit : Nat) :
    ∃ outcome, (Recognizer.rule "" .classDec).Runs (.start source limit)
        (consumed source limit) outcome
      ∧ parse source limit = outcome.parsed
      ∧ (Parser.start source limit).parseClass.after = outcome.after := by
  obtain ⟨tokens, outcome, hruns, hresult⟩ := exists_runs_parse source limit
  have hafter : (Parser.start source limit).parseClass.after
      = outcome.after := by
    rw [Parser.after_parseClass, hruns.run_eq]
  obtain rfl : consumed source limit = tokens := accepted_of_runs hruns
  exact ⟨outcome, hruns, hresult, hafter⟩

section Run

variable {source : TokenSource} {limit : Nat} {tokens : List Token}
  {outcome : Outcome String}

/-- What the run accepts and the token that is next then are what the
source hands out first. -/
theorem take_of_runs
    (h : (Recognizer.rule "" .classDec).Runs (.start source limit) tokens
      outcome) :
    source.take (tokens.length + 1)
      = tokens ++ [outcome.after.lookahead] :=
  Parser.cons_take_of_reaches h.reaches

/-- What the run accepts are tokens of the source, and the token that is
next then is the one after them, if there is one. -/
theorem tokens_eq_of_runs
    (h : (Recognizer.rule "" .classDec).Runs (.start source limit) tokens
      outcome) :
    source.tokens = tokens ++ outcome.after.upcoming := by
  rw [← Parser.upcoming_start source limit]
  exact Parser.upcoming_of_reaches h.reaches
    fun token htoken => (isPlain_of_runs h token htoken).1

/-- If the end of input is next after the run, it is that of the
source. -/
theorem lookahead_eq_ending
    (h : (Recognizer.rule "" .classDec).Runs (.start source limit) tokens
      outcome) (heof : outcome.after.lookahead.kind = .eof) :
    outcome.after.lookahead = source.ending := by
  have htokens := tokens_eq_of_runs h
  rw [Parser.upcoming, if_pos heof, List.append_nil] at htokens
  have htake := take_of_runs h
  rw [TokenSource.take_eq, htokens, List.take_length_add_append,
    List.append_cancel_left_eq] at htake
  exact (List.cons.inj htake).1.symm

end Run

/-- An error shows at the token after those that are consumed. -/
theorem exists_next_of_parse (source : TokenSource) (limit : Nat) :
    ∃ next, source.take ((consumed source limit).length + 1)
        = consumed source limit ++ [next]
      ∧ ∀ error, parse source limit = .error error →
          error = .atToken error.reason next := by
  obtain ⟨outcome, hruns, hresult, -⟩ := exists_runs_consumed source limit
  refine ⟨outcome.after.lookahead, take_of_runs hruns, fun error herror => ?_⟩
  exact (begins_of_error hruns (hresult.symm.trans herror)).2

end JackSyntax
