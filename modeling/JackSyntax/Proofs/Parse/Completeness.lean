/-
What the grammar derives is parsed. A run over the leaves of a derivation
goes through it as long as it stays within the limit, and fails for its
depth alone if it does not (`Runs.fits`). The induction is on the run:
each step of it is the one that the forest asks for, because the bodies
look ahead in the same way in which `Follows` reads them.
-/
import JackSyntax.Proofs.Parse.Soundness

namespace JackSyntax

variable {α : Type}

-- ================================================ runs over derivations

/-- The outcome of a run over the forest: the forest is passed if it is
not too deep, and otherwise the depth is what fails. -/
structure Parser.Fits (parser : Parser) (forest : Forest)
    (outcome : Outcome α) : Prop where
  passes : parser.depth + forest.depth ≤ parser.limit →
    ∃ value after notes, outcome = .done value after
      ∧ parser.Passes forest notes after
  tooDeep : parser.limit < parser.depth + forest.depth →
    ∃ error after, outcome = .failed error after
      ∧ error.reason = .nestingTooDeep parser.limit

namespace Parser.Fits

variable {parser : Parser} {outcome : Outcome α}

/-- A run that fails over a forest fails because the forest is too
deep. -/
theorem of_failed {after : Parser} {forest : Forest} {error : SyntaxError}
    (h : parser.Fits forest (.failed error after : Outcome α)) :
    parser.limit < parser.depth + forest.depth
      ∧ error.reason = .nestingTooDeep parser.limit := by
  have hdeep : parser.limit < parser.depth + forest.depth := by
    apply Nat.lt_of_not_le
    intro hle
    obtain ⟨value, other, notes, hdone, -⟩ := h.passes hle
    cases hdone
  obtain ⟨found, other, hfailed, hreason⟩ := h.tooDeep hdeep
  cases hfailed
  exact ⟨hdeep, hreason⟩

/-- A run that succeeds over a forest passes it, and the forest is not
too deep. -/
theorem of_done {after : Parser} {forest : Forest} {value : α}
    (h : parser.Fits forest (.done value after)) :
    parser.depth + forest.depth ≤ parser.limit
      ∧ ∃ notes, parser.Passes forest notes after := by
  have hle : parser.depth + forest.depth ≤ parser.limit := by
    apply Nat.le_of_not_lt
    intro hlt
    obtain ⟨error, other, hfailed, -⟩ := h.tooDeep hlt
    cases hfailed
  obtain ⟨found, other, notes, hdone, hpasses⟩ := h.passes hle
  cases hdone
  exact ⟨hle, notes, hpasses⟩

theorem nil (value : α) (hdepth : parser.depth ≤ parser.limit) :
    parser.Fits .nil (.done value parser) where
  passes _ := ⟨value, parser, [], rfl, .refl parser⟩
  tooDeep hlt := absurd hdepth (Nat.not_le.2 hlt)

/-- A token does not add to the depth. -/
theorem leaf {rest : Forest}
    (h : (parser.advance.mark (.terminal parser.lookahead)).Fits rest
      outcome) :
    parser.Fits (.leaf parser.lookahead rest) outcome where
  passes hle := by
    obtain ⟨value, after, notes, hdone, hpasses⟩ := h.passes hle
    exact ⟨value, after, notes, hdone, hpasses.leaf⟩
  tooDeep := h.tooDeep

theorem note {forest : Forest} {left : Note}
    (h : (parser.note left).Fits forest outcome) :
    parser.Fits forest outcome where
  passes hle := by
    obtain ⟨value, after, notes, hdone, hpasses⟩ := h.passes hle
    exact ⟨value, after, left :: notes, hdone, hpasses.note⟩
  tooDeep := h.tooDeep

variable {part : Part} {inside back : Forest}

/-- A part that cannot be opened is too deep by itself. -/
theorem shut {after : Parser} {error : SyntaxError}
    (hopen : parser.openPart part = .failed error after) :
    parser.Fits (part.wrap inside ++ back)
      (.failed error after : Outcome α) := by
  obtain ⟨⟨rule, rfl, hcounted⟩, hlimit, rfl, -⟩ := openPart_failed hopen
  constructor
  · intro hle
    rw [Forest.depth_append, Part.wrap, Forest.depth, hcounted,
      if_pos rfl] at hle
    omega
  · intro _
    exact ⟨_, after, rfl, rfl⟩

/-- A part that is too deep inside is too deep. -/
theorem stuck {entered after : Parser} {error : SyntaxError} {β : Type}
    (hopen : parser.openPart part = .done () entered)
    (hbody : entered.Fits inside (.failed error after : Outcome β)) :
    parser.Fits (part.wrap inside ++ back)
      (.failed error after : Outcome α) := by
  obtain ⟨-, hlimit, -, hdeep⟩ := openPart_done hopen
  obtain ⟨hlt, hreason⟩ := hbody.of_failed
  rw [hlimit] at hlt hreason
  have hinner := hdeep inside
  constructor
  · intro hle
    rw [Forest.depth_append] at hle
    omega
  · intro _
    exact ⟨error, after, rfl, hreason⟩

/-- After a part that is not too deep, the depth of the rest decides. -/
theorem through {entered ended : Parser} {β : Type} {value : β}
    (hopen : parser.openPart part = .done () entered)
    (hbody : entered.Fits inside (.done value ended))
    (hnext : (ended.closePart part).Fits back outcome) :
    parser.Fits (part.wrap inside ++ back) outcome := by
  obtain ⟨-, hlimit, -, hdeep⟩ := openPart_done hopen
  obtain ⟨hle, before, hinside⟩ := hbody.of_done
  rw [hlimit] at hle
  have hinner := hdeep inside
  have hpart := Passes.part hopen hinside
  constructor
  · intro hall
    rw [Forest.depth_append] at hall
    have hback : (ended.closePart part).depth + back.depth
        ≤ (ended.closePart part).limit := by
      rw [hpart.depth, hpart.limit]
      omega
    obtain ⟨value, after, behind, hdone, hrest⟩ := hnext.passes hback
    exact ⟨value, after, before ++ behind, hdone, hpart.append hrest⟩
  · intro hlt
    rw [Forest.depth_append] at hlt
    have hback : (ended.closePart part).limit
        < (ended.closePart part).depth + back.depth := by
      rw [hpart.depth, hpart.limit]
      omega
    obtain ⟨error, after, hfailed, hreason⟩ := hnext.tooDeep hback
    exact ⟨error, after, hfailed, hpart.limit ▸ hreason⟩

end Parser.Fits

/-- Where a recognizer follows a forest into a part, the body of the part
follows the inside of it up to a parser that has the rest ahead. -/
theorem Recognizer.Follows.into {owner : String} {part : Part}
    {next : part.Value → Recognizer α} {forest : Forest}
    {parser entered after : Parser}
    (h : (Recognizer.call owner part next).Follows forest
      after.lookahead.kind)
    (hreaches : parser.Reaches forest.leaves after)
    (hopen : parser.openPart part = .done () entered) :
    ∃ inside back middle, forest = part.wrap inside ++ back
      ∧ (body owner part).Follows inside middle.lookahead.kind
      ∧ entered.Reaches inside.leaves middle
      ∧ middle.Reaches back.leaves after
      ∧ ∀ value, (next value).Follows back after.lookahead.kind := by
  obtain ⟨front, back, rfl, hpart, hfollow, hnext⟩ := h
  obtain ⟨inside, hinside, rfl⟩ := Part.exists_of_derives hpart
  rw [Forest.leaves_append, Parser.reaches_append] at hreaches
  obtain ⟨middle, hfront, hback⟩ := hreaches
  rw [Forest.firstKind, ← hback.lookahead_kind] at hfollow
  rw [Part.leaves_wrap] at hfront
  exact ⟨inside, back, middle, rfl,
    (conforms_body owner part).complete hinside hfollow,
    hfront.congr (Parser.openPart_done hopen).1.symm rfl, hback, hnext⟩

/-- A run ahead of a forest that the recognizer follows fits it. -/
theorem Recognizer.Runs.fits {recognizer : Recognizer α}
    {parser after : Parser} {tokens : List Token} {outcome : Outcome α}
    {forest : Forest} (h : recognizer.Runs parser tokens outcome)
    (hfollows : recognizer.Follows forest after.lookahead.kind)
    (hreaches : parser.Reaches forest.leaves after)
    (hdepth : parser.depth ≤ parser.limit) :
    parser.Fits forest outcome := by
  induction h generalizing forest after with
  | done value parser =>
    obtain rfl : forest = .nil := hfollows
    exact .nil value hdepth
  | look _ ih =>
    refine ih ?_ hreaches hdepth
    rw [hreaches.lookahead_kind]
    exact hfollows
  | accept hkind _ ih =>
    obtain ⟨token, rest, rfl, -, hfollows⟩ := hfollows
    obtain ⟨rfl, hrest⟩ := hreaches
    exact .leaf (ih hfollows (hrest.congr rfl rfl) hdepth)
  | reject hkind =>
    obtain ⟨token, rest, rfl, hmem, -⟩ := hfollows
    obtain ⟨rfl, -⟩ := hreaches
    exact absurd hmem hkind
  | refuse reason parser => cases hfollows
  | note _ ih => exact .note (ih hfollows (hreaches.congr rfl rfl) hdepth)
  | shut hopen =>
    obtain ⟨front, back, rfl, hpart, -, -⟩ := hfollows
    obtain ⟨inside, -, rfl⟩ := Part.exists_of_derives hpart
    exact .shut hopen
  | stuck hopen _ ihBody =>
    obtain ⟨inside, back, middle, rfl, hbody, hinside, -, -⟩ :=
      Follows.into hfollows hreaches hopen
    obtain ⟨-, hlimit, hentered, -⟩ := Parser.openPart_done hopen
    exact .stuck hopen (ihBody hbody hinside (hlimit ▸ hentered hdepth))
  | @through _ _ part _ _ _ ended _ _ _ _ hopen _ _ ihBody ihNext =>
    obtain ⟨inside, back, middle, rfl, hbody, hinside, hback, hnext⟩ :=
      Follows.into hfollows hreaches hopen
    obtain ⟨-, hlimit, hentered, -⟩ := Parser.openPart_done hopen
    have hfits := ihBody hbody hinside (hlimit ▸ hentered hdepth)
    obtain ⟨-, before, hpasses⟩ := hfits.of_done
    have hpart := Parser.Passes.part hopen hpasses
    -- the part ends where the rest of the forest is ahead
    have hended : middle.window = (ended.closePart part).window := by
      rw [Parser.window_closePart]
      exact hinside.unique hpasses.reaches
    refine .through hopen hfits (ihNext (hnext _) (hback.congr hended rfl) ?_)
    rw [hpart.depth, hpart.limit]
    exact hdepth

-- ======================================================= whole classes

/-- Parsing a class before the end of input runs over its derivation, and
comes to the end of input if it passes the derivation. -/
theorem exists_fits_parse {forest : Forest} {eof : Token}
    (h : IsClass forest) (heof : eof.kind = .eof) (limit : Nat) :
    ∃ outcome, parse (.ofTokens (forest.leaves ++ [eof])) limit
        = outcome.parsed
      ∧ (Parser.start (.ofTokens (forest.leaves ++ [eof])) limit).Fits forest
          outcome
      ∧ ∀ after notes, (Parser.start (.ofTokens (forest.leaves ++ [eof]))
            limit).Passes forest notes after →
          after.lookahead.kind = .eof := by
  let first := Parser.start (.ofTokens (forest.leaves ++ [eof])) limit
  have hahead : first.Ahead (forest.leaves ++ [eof]) :=
    Parser.ahead_start _ limit
  obtain ⟨last, hreaches, hlast⟩ := hahead.exists_reaches
    fun token htoken => (h.isPlain rfl token htoken).1
  have hkind : last.lookahead.kind = .eof := by rw [hlast.lookahead, heof]
  have hfollows : (Recognizer.rule "" .classDec).Follows forest
      last.lookahead.kind := by
    rw [hkind]
    exact ⟨forest, .nil, (Forest.append_nil forest).symm, h,
      List.mem_cons_self, fun _ => rfl⟩
  obtain ⟨tokens, outcome, hruns, hresult⟩ :=
    exists_runs_parse (.ofTokens (forest.leaves ++ [eof])) limit
  refine ⟨outcome, hresult, hruns.fits hfollows hreaches (Nat.zero_le limit),
    fun after notes hpasses => ?_⟩
  rw [← hkind, Parser.lookahead_eq_of_window
    (hreaches.unique hpasses.reaches)]

/-- A class that is not too deep is parsed to the trace of its
derivation. -/
theorem parse_of_depth_le {forest : Forest} {eof : Token} {limit : Nat}
    (h : IsClass forest) (heof : eof.kind = .eof)
    (hle : forest.depth ≤ limit) :
    ∃ parsed, parse (.ofTokens (forest.leaves ++ [eof])) limit = .ok parsed
      ∧ parsed.trace.toList = forest.entries := by
  obtain ⟨outcome, hresult, hfits, hend⟩ := exists_fits_parse h heof limit
  have hdepth : 0 + forest.depth ≤ limit := (Nat.zero_add _).symm ▸ hle
  obtain ⟨name, after, notes, rfl, hpasses⟩ := hfits.passes hdepth
  rw [hresult]
  exact ⟨_, if_pos (hend after notes hpasses), hpasses.trace⟩

end JackSyntax
