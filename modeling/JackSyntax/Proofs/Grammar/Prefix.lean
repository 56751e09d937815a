/-
Beginnings of sentences. `Phrase.Begins` says that a list of kinds can be
completed to one that the phrase derives; since every rule derives
something (`exists_derives_rule`), a beginning of the first part of a
row is a beginning of the whole row.
-/
import JackSyntax.Proofs.Grammar.Lookahead

namespace JackSyntax

-- ============================================ every rule is productive

namespace Phrase

/-- The phrase derives something if the given rules do. -/
def isProductive (known : Rule → Bool) : Phrase → Bool
  | .token kinds => !kinds.isEmpty
  | .rule named => known named
  | .nothing | .repeated _ => true
  | .next first second =>
    first.isProductive known && second.isProductive known
  | .either first second =>
    first.isProductive known || second.isProductive known

end Phrase

/-- The rule derives a tree with so many rules at most one inside the
other. -/
def Rule.isProductiveWithin : Nat → Rule → Bool
  | 0, _ => false
  | height + 1, named =>
    named.content.isProductive (isProductiveWithin height)

theorem exists_derives_of_isProductive {known : Rule → Bool}
    (hknown : ∀ rule, known rule = true →
      ∃ forest, Derives (.rule rule) forest)
    {phrase : Phrase} (h : phrase.isProductive known = true) :
    ∃ forest, Derives phrase forest := by
  induction phrase with
  | token kinds =>
    cases kinds with
    | nil => cases h
    | cons kind kinds =>
      exact ⟨.leaf ⟨kind, "", .start⟩ .nil, .token List.mem_cons_self⟩
  | rule rule => exact hknown rule h
  | nothing => exact ⟨.nil, .nothing⟩
  | next first second ihFirst ihSecond =>
    rw [Phrase.isProductive, Bool.and_eq_true] at h
    obtain ⟨front, hfront⟩ := ihFirst h.1
    obtain ⟨back, hback⟩ := ihSecond h.2
    exact ⟨front ++ back, .next hfront hback⟩
  | either first second ihFirst ihSecond =>
    rw [Phrase.isProductive, Bool.or_eq_true] at h
    rcases h with h | h
    · obtain ⟨forest, hforest⟩ := ihFirst h
      exact ⟨forest, .left hforest⟩
    · obtain ⟨forest, hforest⟩ := ihSecond h
      exact ⟨forest, .right hforest⟩
  | repeated phrase => exact ⟨.nil, .stop⟩

/-- Every rule derives something: three rules one inside the other are
always enough. -/
theorem exists_derives_rule (rule : Rule) :
    ∃ forest, Derives (.rule rule) forest := by
  have hheight : ∀ height rule, rule.isProductiveWithin height = true →
      ∃ forest, Derives (.rule rule) forest := by
    intro height
    induction height with
    | zero =>
      intro rule h
      cases h
    | succ height ih =>
      intro rule h
      obtain ⟨inside, hinside⟩ := exists_derives_of_isProductive ih h
      exact ⟨_, .rule hinside⟩
  exact hheight 3 rule (by cases rule <;> rfl)

/-- No choice of tokens in the phrase is empty. -/
def Phrase.hasKinds : Phrase → Bool
  | .token kinds => !kinds.isEmpty
  | .rule _ | .nothing => true
  | .next first second | .either first second =>
    first.hasKinds && second.hasKinds
  | .repeated phrase => phrase.hasKinds

theorem Phrase.isProductive_of_hasKinds {phrase : Phrase}
    (h : phrase.hasKinds = true) :
    phrase.isProductive (fun _ => true) = true := by
  induction phrase with
  | token kinds => exact h
  | rule named => rfl
  | nothing => rfl
  | next first second ihFirst ihSecond =>
    rw [hasKinds, Bool.and_eq_true] at h
    rw [isProductive, ihFirst h.1, ihSecond h.2, Bool.true_and]
  | either first second ihFirst _ =>
    rw [hasKinds, Bool.and_eq_true] at h
    rw [isProductive, ihFirst h.1, Bool.true_or]
  | repeated phrase => rfl

/-- A phrase without an empty choice of tokens derives something. -/
theorem exists_derives {phrase : Phrase} (h : phrase.hasKinds = true) :
    ∃ forest, Derives phrase forest :=
  exists_derives_of_isProductive (fun rule _ => exists_derives_rule rule)
    (Phrase.isProductive_of_hasKinds h)

/-- A phrase that can be empty derives a row without leaves. -/
theorem exists_derives_of_isNullable {phrase : Phrase}
    (h : phrase.isNullable = true) :
    ∃ forest, Derives phrase forest ∧ forest.leaves = [] := by
  induction phrase with
  | token kinds => cases h
  | rule named =>
    refine ⟨.node named .nil .nil, .rule ?_, rfl⟩
    cases named with
    | parameterList => exact .left .nothing
    | statements => exact .stop
    | expressionList => exact .left .nothing
    | _ => cases h
  | nothing => exact ⟨.nil, .nothing, rfl⟩
  | next first second ihFirst ihSecond =>
    rw [Phrase.isNullable, Bool.and_eq_true] at h
    obtain ⟨front, hfront, hnone⟩ := ihFirst h.1
    obtain ⟨back, hback, hnone'⟩ := ihSecond h.2
    refine ⟨front ++ back, .next hfront hback, ?_⟩
    rw [Forest.leaves_append, hnone, hnone', List.append_nil]
  | either first second ihFirst ihSecond =>
    rw [Phrase.isNullable, Bool.or_eq_true] at h
    rcases h with h | h
    · obtain ⟨forest, hforest, hnone⟩ := ihFirst h
      exact ⟨forest, .left hforest, hnone⟩
    · obtain ⟨forest, hforest, hnone⟩ := ihSecond h
      exact ⟨forest, .right hforest, hnone⟩
  | repeated phrase => exact ⟨.nil, .stop, rfl⟩

-- ========================================================== beginnings

/-- The kinds are the first ones of something that the phrase derives. -/
def Phrase.Begins (phrase : Phrase) (kinds : List Kind) : Prop :=
  ∃ forest, Derives phrase forest
    ∧ kinds <+: forest.leaves.map Token.kind

namespace Phrase.Begins

variable {first second : Phrase} {front : Forest} {kinds : List Kind}

/-- What derives something begins with nothing. -/
theorem empty (h : ∃ forest, Derives first forest) : first.Begins [] := by
  obtain ⟨forest, hforest⟩ := h
  exact ⟨forest, hforest, List.nil_prefix⟩

theorem imp (h : first.Begins kinds)
    (himp : ∀ forest, Derives first forest → Derives second forest) :
    second.Begins kinds := by
  obtain ⟨forest, hforest, hbegin⟩ := h
  exact ⟨forest, himp forest hforest, hbegin⟩

/-- A single token begins with its kind. -/
theorem token {kind : Kind} (h : kind ∈ kinds) :
    (Phrase.token kinds).Begins [kind] :=
  ⟨.leaf ⟨kind, "", .start⟩ .nil, .token h, List.prefix_rfl⟩

/-- A rule begins as its content does. -/
theorem rule {rule : Rule} (h : rule.content.Begins kinds) :
    (Phrase.rule rule).Begins kinds := by
  obtain ⟨inside, hinside, hbegin⟩ := h
  refine ⟨.node rule inside .nil, .rule hinside, ?_⟩
  rwa [Forest.leaves, Forest.leaves, List.append_nil]

/-- A row begins as its first part does, if there is a second part to
complete it with. -/
theorem next (h : first.Begins kinds)
    (hsecond : ∃ back, Derives second back) :
    (Phrase.next first second).Begins kinds := by
  obtain ⟨front, hfront, hbegin⟩ := h
  obtain ⟨back, hback⟩ := hsecond
  refine ⟨front ++ back, .next hfront hback, ?_⟩
  rw [Forest.leaves_append, List.map_append]
  exact hbegin.trans (List.prefix_append _ _)

/-- A row also begins with all of its first part and a beginning of the
second. -/
theorem after (hfront : Derives first front) (h : second.Begins kinds) :
    (Phrase.next first second).Begins
      (front.leaves.map Token.kind ++ kinds) := by
  obtain ⟨back, hback, hbegin⟩ := h
  refine ⟨front ++ back, .next hfront hback, ?_⟩
  rw [Forest.leaves_append, List.map_append]
  exact (List.prefix_append_right_inj _).2 hbegin

theorem left (h : first.Begins kinds) :
    (Phrase.either first second).Begins kinds :=
  h.imp fun _ => .left

theorem right (h : second.Begins kinds) :
    (Phrase.either first second).Begins kinds :=
  h.imp fun _ => .right

end Phrase.Begins

-- ================================================= the heads are exact

/-- The kinds with which a row of the rule begins, in trees with so many
rules at most one inside the other before the first leaf. -/
def Rule.headsWithin : Nat → Rule → List Kind
  | 0, _ => []
  | height + 1, named => named.content.headsBy (headsWithin height)

theorem Rule.hasKinds_content (rule : Rule) :
    rule.content.hasKinds = true := by
  cases rule <;> rfl

theorem begins_of_mem_headsBy {known : Rule → List Kind}
    (hknown : ∀ rule, ∀ kind ∈ known rule, (Phrase.rule rule).Begins [kind])
    {phrase : Phrase} (hkinds : phrase.hasKinds = true) {kind : Kind}
    (h : kind ∈ phrase.headsBy known) : phrase.Begins [kind] := by
  induction phrase with
  | token kinds => exact .token h
  | rule named => exact hknown named kind h
  | nothing => cases h
  | next first second ihFirst ihSecond =>
    rw [Phrase.hasKinds, Bool.and_eq_true] at hkinds
    rw [Phrase.headsBy, List.mem_append] at h
    rcases h with h | h
    · exact (ihFirst hkinds.1 h).next (exists_derives hkinds.2)
    · split at h
      · rename_i hnull
        obtain ⟨front, hfront, hnone⟩ := exists_derives_of_isNullable hnull
        have hafter := Phrase.Begins.after hfront (ihSecond hkinds.2 h)
        rwa [hnone] at hafter
      · cases h
  | either first second ihFirst ihSecond =>
    rw [Phrase.hasKinds, Bool.and_eq_true] at hkinds
    rw [Phrase.headsBy, List.mem_append] at h
    rcases h with h | h
    · exact (ihFirst hkinds.1 h).left
    · exact (ihSecond hkinds.2 h).right
  | repeated phrase ih =>
    have hone : (Phrase.next phrase (.repeated phrase)).Begins [kind] :=
      (ih hkinds h).next ⟨.nil, .stop⟩
    exact hone.imp fun forest hforest =>
      derives_repeated_iff.2 (.inl hforest)

/-- Each of its heads really begins something that the phrase derives. -/
theorem begins_of_mem_heads {phrase : Phrase}
    (hkinds : phrase.hasKinds = true) {kind : Kind}
    (h : kind ∈ phrase.heads) : phrase.Begins [kind] := by
  have hwithin : ∀ height rule, ∀ kind ∈ Rule.headsWithin height rule,
      (Phrase.rule rule).Begins [kind] := by
    intro height
    induction height with
    | zero =>
      intro rule kind hkind
      cases hkind
    | succ height ih =>
      intro rule kind hkind
      exact (begins_of_mem_headsBy ih rule.hasKinds_content hkind).rule
  have htable : ∀ rule : Rule, ∀ kind ∈ rule.heads,
      kind ∈ rule.headsWithin 3 := by
    intro rule
    cases rule <;> decide
  exact begins_of_mem_headsBy
    (fun rule kind hkind => hwithin 3 rule kind (htable rule kind hkind))
    hkinds h

end JackSyntax
