/-
Derivations taken apart and changed. The first part reads a derivation
off its phrase (`derives_next_iff` and its siblings), so a proof about a
rule follows the text of the rule.

The rest are facts about the grammar as a whole: no derivation has the
end of input or illegal text among its leaves (`Derives.isPlain`), and
its leaves may be exchanged for any others of the same kinds
(`Derives.relabel`).
-/
import JackSyntax.Grammar.Phrase

namespace JackSyntax

open Phrase

-- ================================================ reading a derivation

theorem derives_token_iff {kinds : List Kind} {forest : Forest} :
    Derives (.token kinds) forest
      ↔ ∃ token, token.kind ∈ kinds ∧ forest = .leaf token .nil := by
  constructor
  · rintro ⟨h⟩
    exact ⟨_, h, rfl⟩
  · rintro ⟨token, h, rfl⟩
    exact .token h

theorem derives_rule_iff {rule : Rule} {forest : Forest} :
    Derives (.rule rule) forest
      ↔ ∃ inside, Derives rule.content inside
          ∧ forest = .node rule inside .nil := by
  constructor
  · rintro (_ | h)
    exact ⟨_, h, rfl⟩
  · rintro ⟨inside, h, rfl⟩
    exact .rule h

theorem derives_nothing_iff {forest : Forest} :
    Derives .nothing forest ↔ forest = .nil := by
  constructor
  · rintro ⟨⟩
    rfl
  · rintro rfl
    exact .nothing

theorem derives_next_iff {first second : Phrase} {forest : Forest} :
    Derives (.next first second) forest
      ↔ ∃ front back, Derives first front ∧ Derives second back
          ∧ forest = front ++ back := by
  constructor
  · intro h
    cases h with
    | next hfirst hsecond => exact ⟨_, _, hfirst, hsecond, rfl⟩
  · rintro ⟨front, back, hfirst, hsecond, rfl⟩
    exact .next hfirst hsecond

theorem derives_either_iff {first second : Phrase} {forest : Forest} :
    Derives (.either first second) forest
      ↔ Derives first forest ∨ Derives second forest := by
  constructor
  · intro h
    cases h with
    | left h => exact .inl h
    | right h => exact .inr h
  · rintro (h | h)
    · exact .left h
    · exact .right h

/-- The kinds of a token are its alternatives. -/
theorem derives_token_cons_iff {kind : Kind} {kinds : List Kind}
    {forest : Forest} :
    Derives (.token (kind :: kinds)) forest
      ↔ Derives (.kind kind) forest ∨ Derives (.token kinds) forest := by
  simp only [Phrase.kind, derives_token_iff, List.mem_cons,
    List.not_mem_nil, or_false, or_and_right, exists_or]

/-- A token before a phrase is a leaf before a forest. -/
theorem derives_token_next_iff {kinds : List Kind} {phrase : Phrase}
    {forest : Forest} :
    Derives (.next (.token kinds) phrase) forest
      ↔ ∃ token rest, token.kind ∈ kinds ∧ Derives phrase rest
          ∧ forest = .leaf token rest := by
  rw [derives_next_iff]
  constructor
  · rintro ⟨front, back, hfront, hback, rfl⟩
    obtain ⟨token, hkind, rfl⟩ := derives_token_iff.1 hfront
    exact ⟨token, back, hkind, hback, rfl⟩
  · rintro ⟨token, rest, hkind, hrest, rfl⟩
    exact ⟨_, rest, .token hkind, hrest, rfl⟩

/-- Phrases in a row may be grouped in any way. -/
theorem derives_next_assoc {first second third : Phrase}
    {forest : Forest} :
    Derives (.next (.next first second) third) forest
      ↔ Derives (.next first (.next second third)) forest := by
  constructor
  · intro h
    obtain ⟨front, back, hfront, hback, rfl⟩ := derives_next_iff.1 h
    obtain ⟨one, two, hone, htwo, rfl⟩ := derives_next_iff.1 hfront
    rw [Forest.append_assoc]
    exact .next hone (.next htwo hback)
  · intro h
    obtain ⟨front, back, hfront, hback, rfl⟩ := derives_next_iff.1 h
    obtain ⟨two, three, htwo, hthree, rfl⟩ := derives_next_iff.1 hback
    rw [← Forest.append_assoc]
    exact .next (.next hfront htwo) hthree

/-- In a row each part may be replaced by one that derives the same. -/
theorem derives_next_congr {first first' second second' : Phrase}
    (hfirst : ∀ forest, Derives first forest ↔ Derives first' forest)
    (hsecond : ∀ forest, Derives second forest ↔ Derives second' forest)
    (forest : Forest) :
    Derives (.next first second) forest
      ↔ Derives (.next first' second') forest := by
  simp only [derives_next_iff, hfirst, hsecond]

/-- A choice may be made before or after what comes first. -/
theorem derives_next_either_iff {first second third : Phrase}
    {forest : Forest} :
    Derives (.next first (.either second third)) forest
      ↔ Derives (.next first second) forest
          ∨ Derives (.next first third) forest := by
  simp only [derives_next_iff, derives_either_iff, or_and_right,
    and_or_left, exists_or]

/-- An optional phrase before another one is there or not. -/
theorem derives_optional_next_iff {first second : Phrase}
    {forest : Forest} :
    Derives (.next (.optional first) second) forest
      ↔ Derives (.next first second) forest ∨ Derives second forest := by
  constructor
  · intro h
    obtain ⟨front, back, hfront, hback, rfl⟩ := derives_next_iff.1 h
    rcases derives_either_iff.1 hfront with hnothing | hfirst
    · obtain rfl := derives_nothing_iff.1 hnothing
      exact .inr hback
    · exact .inl (.next hfirst hback)
  · rintro (h | h)
    · obtain ⟨front, back, hfront, hback, rfl⟩ := derives_next_iff.1 h
      exact .next (.right hfront) hback
    · exact .next (.left .nothing) h

/-- One more or none: a repetition taken apart. -/
theorem derives_repeated_iff {phrase : Phrase} {forest : Forest} :
    Derives (.repeated phrase) forest
      ↔ Derives (.next phrase (.repeated phrase)) forest
          ∨ Derives .nothing forest := by
  constructor
  · intro h
    cases h with
    | stop => exact .inr .nothing
    | more hone hrest => exact .inl (.next hone hrest)
  · rintro (h | h)
    · obtain ⟨front, back, hfront, hback, rfl⟩ := derives_next_iff.1 h
      exact .more hfront hback
    · obtain rfl := derives_nothing_iff.1 h
      exact .stop

-- ================================================= the kinds of leaves

/-- No token of the phrase is the end of input or illegal. -/
def Phrase.isPlain : Phrase → Bool
  | .token kinds => !kinds.contains .eof && !kinds.contains .illegal
  | .rule _ | .nothing => true
  | .next first second | .either first second =>
    first.isPlain && second.isPlain
  | .repeated phrase => phrase.isPlain

theorem Rule.isPlain_content (rule : Rule) :
    rule.content.isPlain = true := by
  cases rule <;> rfl

/-- No leaf of a derivation is the end of input or illegal. -/
theorem Derives.isPlain {phrase : Phrase} {forest : Forest}
    (h : Derives phrase forest) (hplain : phrase.isPlain = true) :
    ∀ token ∈ forest.leaves,
      token.kind ≠ .eof ∧ token.kind ≠ .illegal := by
  induction h with
  | @token kinds token hkind =>
    intro other hother
    obtain rfl := List.mem_singleton.1 hother
    simp only [Phrase.isPlain, Bool.and_eq_true, Bool.not_eq_true',
      List.contains_eq_mem, decide_eq_false_iff_not] at hplain
    exact ⟨fun heof => hplain.1 (heof ▸ hkind),
      fun hillegal => hplain.2 (hillegal ▸ hkind)⟩
  | @rule rule inside _ ih =>
    intro token htoken
    rw [Forest.leaves, Forest.leaves, List.append_nil] at htoken
    exact ih rule.isPlain_content token htoken
  | nothing =>
    intro token htoken
    cases htoken
  | next _ _ ihFirst ihSecond =>
    intro token htoken
    rw [Phrase.isPlain, Bool.and_eq_true] at hplain
    rw [Forest.leaves_append, List.mem_append] at htoken
    rcases htoken with htoken | htoken
    · exact ihFirst hplain.1 token htoken
    · exact ihSecond hplain.2 token htoken
  | left _ ih =>
    rw [Phrase.isPlain, Bool.and_eq_true] at hplain
    exact ih hplain.1
  | right _ ih =>
    rw [Phrase.isPlain, Bool.and_eq_true] at hplain
    exact ih hplain.2
  | stop =>
    intro token htoken
    cases htoken
  | more _ _ ihOne ihRest =>
    intro token htoken
    rw [Forest.leaves_append, List.mem_append] at htoken
    rcases htoken with htoken | htoken
    · exact ihOne hplain token htoken
    · exact ihRest hplain token htoken

-- ============================================= exchanging the leaves

/-- Whatever is derived with some leaves is derived with any others of
the same kinds. -/
theorem Derives.relabel {phrase : Phrase} {forest : Forest}
    (h : Derives phrase forest) {tokens : List Token}
    (hkinds : tokens.map Token.kind = forest.leaves.map Token.kind) :
    ∃ relabelled, Derives phrase relabelled
      ∧ relabelled.leaves = tokens := by
  induction h generalizing tokens with
  | @token kinds token hkind =>
    obtain ⟨other, rfl⟩ : ∃ other, tokens = [other] := by
      rw [← List.length_eq_one_iff, ← List.length_map (f := Token.kind),
        hkinds]
      rfl
    have hsame : other.kind = token.kind := (List.cons.inj hkinds).1
    exact ⟨.leaf other .nil, .token (hsame ▸ hkind), rfl⟩
  | @rule rule inside _ ih =>
    rw [Forest.leaves, Forest.leaves, List.append_nil] at hkinds
    obtain ⟨relabelled, hderives, hleaves⟩ := ih hkinds
    refine ⟨.node rule relabelled .nil, .rule hderives, ?_⟩
    rw [Forest.leaves, Forest.leaves, List.append_nil, hleaves]
  | nothing =>
    obtain rfl := List.map_eq_nil_iff.1 hkinds
    exact ⟨.nil, .nothing, rfl⟩
  | next _ _ ihFirst ihSecond =>
    rw [Forest.leaves_append, List.map_append] at hkinds
    obtain ⟨front, back, rfl, hfront, hback⟩ := List.map_eq_append_iff.1 hkinds
    obtain ⟨first, hfirst, rfl⟩ := ihFirst hfront
    obtain ⟨second, hsecond, rfl⟩ := ihSecond hback
    exact ⟨first ++ second, .next hfirst hsecond,
      Forest.leaves_append first second⟩
  | left _ ih =>
    obtain ⟨relabelled, hderives, hleaves⟩ := ih hkinds
    exact ⟨relabelled, .left hderives, hleaves⟩
  | right _ ih =>
    obtain ⟨relabelled, hderives, hleaves⟩ := ih hkinds
    exact ⟨relabelled, .right hderives, hleaves⟩
  | stop =>
    obtain rfl := List.map_eq_nil_iff.1 hkinds
    exact ⟨.nil, .stop, rfl⟩
  | more _ _ ihOne ihRest =>
    rw [Forest.leaves_append, List.map_append] at hkinds
    obtain ⟨front, back, rfl, hfront, hback⟩ := List.map_eq_append_iff.1 hkinds
    obtain ⟨one, hone, rfl⟩ := ihOne hfront
    obtain ⟨rest, hrest, rfl⟩ := ihRest hback
    exact ⟨one ++ rest, .more hone hrest, Forest.leaves_append one rest⟩

end JackSyntax
