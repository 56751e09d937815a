/-
When a recognizer conforms to a phrase. `Conforms` asks that what it can
go through is derived by the phrase, that it goes through all that the
phrase derives where one of the following kinds is next, and that its
failures promise beginnings of the phrase.

Conforming recognizers are composed along the shapes of phrases: tokens,
parts, sequences, and choices by the kind of the next token. What has to
be checked of the kinds in a sequence or a choice is a finite matter and
is decided where it comes up.
-/
import JackSyntax.Proofs.Parse.Readings

namespace JackSyntax

variable {α β : Type}

-- =========================================================== promises

namespace Phrase.Promises

variable {first second : Phrase} {tokens : List Token} {reason : Reason}

theorem imp (h : first.Promises tokens reason)
    (himp : ∀ forest, Derives first forest → Derives second forest) :
    second.Promises tokens reason :=
  ⟨h.1.imp himp, fun kind hkind => (h.2 kind hkind).imp himp⟩

theorem rule {rule : Rule} (h : rule.content.Promises tokens reason) :
    (Phrase.rule rule).Promises tokens reason :=
  ⟨h.1.rule, fun kind hkind => (h.2 kind hkind).rule⟩

theorem next (h : first.Promises tokens reason)
    (hsecond : ∃ back, Derives second back) :
    (Phrase.next first second).Promises tokens reason :=
  ⟨h.1.next hsecond, fun kind hkind => (h.2 kind hkind).next hsecond⟩

theorem after {front : Forest} (hfront : Derives first front)
    (h : second.Promises tokens reason) :
    (Phrase.next first second).Promises (front.leaves ++ tokens)
      reason := by
  rw [Phrase.Promises, List.map_append]
  constructor
  · exact .after hfront h.1
  · intro kind hkind
    rw [List.append_assoc]
    exact .after hfront (h.2 kind hkind)

end Phrase.Promises

/-- A choice derives what one of its alternatives derives. -/
theorem derives_choice_iff {alternatives : List Phrase}
    {forest : Forest} :
    Derives (.choice alternatives) forest
      ↔ ∃ phrase ∈ alternatives, Derives phrase forest := by
  induction alternatives with
  | nil =>
    rw [Phrase.choice, derives_token_iff]
    simp
  | cons phrase phrases ih =>
    cases phrases with
    | nil => simp [Phrase.choice]
    | cons phrase' phrases =>
      simp only [Phrase.choice, derives_either_iff, ih, List.mem_cons,
        exists_eq_or_imp]

/-- A choice begins as its alternatives do. -/
theorem Phrase.Begins.choice {alternatives : List Phrase}
    {phrase : Phrase} {kinds : List Kind} (hmem : phrase ∈ alternatives)
    (h : phrase.Begins kinds) :
    (Phrase.choice alternatives).Begins kinds :=
  h.imp fun _ hderives => derives_choice_iff.2 ⟨phrase, hmem, hderives⟩

-- ======================================================== conformance

namespace Recognizer

/-- The recognizer recognizes the phrase, as long as one of the given
kinds is next after it. -/
structure Conforms (recognizer : Recognizer α) (phrase : Phrase)
    (follow : List Kind) : Prop where
  sound {forest : Forest} {notes : List Note} {value : α} :
    recognizer.Builds derived forest notes value → Derives phrase forest
  complete {forest : Forest} {next : Kind} :
    Derives phrase forest → next ∈ follow → recognizer.Follows forest next
  promises {tokens : List Token} {reason : Reason} :
    recognizer.Stalls tokens reason → phrase.Promises tokens reason

namespace Conforms

variable {phrase second : Phrase} {follow : List Kind}

/-- Phrases that derive the same are recognized by the same. -/
theorem congr {recognizer : Recognizer α}
    (h : recognizer.Conforms phrase follow)
    (hiff : ∀ forest, Derives phrase forest ↔ Derives second forest) :
    recognizer.Conforms second follow where
  sound hbuilds := (hiff _).1 (h.sound hbuilds)
  complete hderives hnext := h.complete ((hiff _).2 hderives) hnext
  promises hstalls := (h.promises hstalls).imp fun forest => (hiff forest).1

/-- Fewer kinds may be next. -/
theorem mono {recognizer : Recognizer α} {fewer : List Kind}
    (h : recognizer.Conforms phrase follow)
    (hsub : ∀ kind ∈ fewer, kind ∈ follow) :
    recognizer.Conforms phrase fewer where
  sound := h.sound
  complete hderives hnext := h.complete hderives (hsub _ hnext)
  promises := h.promises

-- ============================================================= pieces

/-- Yielding a value recognizes nothing. -/
theorem pure (value : α) :
    (Pure.pure value : Recognizer α).Conforms .nothing follow where
  sound hbuilds := by
    obtain ⟨rfl, -, -⟩ := hbuilds
    exact .nothing
  complete hderives _ := derives_nothing_iff.1 hderives
  promises hstalls := nomatch hstalls

/-- A note recognizes nothing. -/
theorem record {left : Note} {next : Unit → Recognizer α}
    (hnext : ∀ value, (next value).Conforms phrase follow) :
    (Recognizer.record left >>= next).Conforms phrase follow where
  sound hbuilds := by
    obtain ⟨notes, -, hbuilds⟩ := hbuilds
    exact (hnext ()).sound hbuilds
  complete hderives hafter := (hnext ()).complete hderives hafter
  promises hstalls := (hnext ()).promises hstalls

theorem record_last {left : Note} :
    (Recognizer.record left).Conforms .nothing follow :=
  record fun _ => pure ()

/-- A part recognizes its phrase. -/
theorem part (owner : String) (part : Part) :
    (Recognizer.part owner part).Conforms part.phrase part.follow where
  sound hbuilds := by
    obtain ⟨front, back, _, _, value, rfl, -, hpart, rfl, -⟩ := hbuilds
    rwa [Forest.append_nil]
  complete {forest _} hderives hafter :=
    ⟨forest, .nil, forest.append_nil.symm, hderives, hafter, fun _ => rfl⟩
  promises hstalls := by
    rcases hstalls with hpart | ⟨_, _, _, _, _, hdone⟩
    · exact hpart
    · cases hdone

theorem rule (owner : String) (named : Rule) :
    (Recognizer.rule owner named).Conforms (.rule named) named.follow :=
  part owner (.rule named)

theorem many (owner : String) (item : Item) :
    (Recognizer.many owner item).Conforms (.repeated item.phrase)
      item.follow :=
  part owner (.many item)

/-- Accepting a token recognizes it, whatever is next. -/
theorem take {kind : Kind} {kinds : List Kind} :
    (Recognizer.take (kind :: kinds)).Conforms (.token (kind :: kinds))
      follow where
  sound hbuilds := by
    obtain ⟨token, rest, rfl, hkind, rfl, -⟩ := hbuilds
    exact .token hkind
  complete hderives _ := by
    obtain ⟨token, hkind, rfl⟩ := derives_token_iff.1 hderives
    exact ⟨token, .nil, rfl, hkind, rfl⟩
  promises hstalls := by
    rcases hstalls with ⟨rfl, rfl⟩ | ⟨_, _, _, _, hdone⟩
    · obtain ⟨forest, hforest, -⟩ :=
        Phrase.Begins.token (List.mem_cons_self : kind ∈ kind :: kinds)
      exact ⟨.empty ⟨forest, hforest⟩, fun _ => .token⟩
    · cases hdone

-- ========================================================== sequences

/-- One recognizer after another recognizes one phrase after another, if
whatever the second begins with can follow the first. -/
theorem bind {first : Recognizer α} {next : α → Recognizer β}
    {middle : List Kind} (hfirst : first.Conforms phrase middle)
    (hmiddle : ∀ kind ∈ second.headsBefore follow, kind ∈ middle)
    (hproductive : second.hasKinds = true)
    (hnext : ∀ value, (next value).Conforms second follow) :
    (first >>= next).Conforms (.next phrase second) follow where
  sound hbuilds := by
    obtain ⟨front, back, _, _, value, rfl, -, hfront, hback⟩ :=
      builds_bind hbuilds
    exact .next (hfirst.sound hfront) ((hnext value).sound hback)
  complete hderives hafter := by
    obtain ⟨front, back, hfront, hback, rfl⟩ :=
      derives_next_iff.1 hderives
    have hkind := hmiddle _ (hback.firstKind_mem hafter)
    exact follows_bind (hfirst.complete hfront hkind)
      fun value => (hnext value).complete hback hafter
  promises hstalls := by
    rcases stalls_bind hstalls with hstalls | ⟨front, _, value, rest, rfl,
      hfront, hstalls⟩
    · exact (hfirst.promises hstalls).next (exists_derives hproductive)
    · exact .after (hfirst.sound hfront) ((hnext value).promises hstalls)

/-- Nothing has to be checked after what does not mind what follows. -/
theorem bind_any {first : Recognizer α} {next : α → Recognizer β}
    (hfirst : ∀ middle, first.Conforms phrase middle)
    (hproductive : second.hasKinds = true)
    (hnext : ∀ value, (next value).Conforms second follow) :
    (first >>= next).Conforms (.next phrase second) follow :=
  bind (hfirst _) (fun _ hkind => hkind) hproductive hnext

/-- What recognizes nothing may come last. -/
theorem last {first : Recognizer α} {next : α → Recognizer β}
    (hfirst : first.Conforms phrase follow)
    (hnext : ∀ value, (next value).Conforms .nothing follow) :
    (first >>= next).Conforms phrase follow := by
  have hself : ∀ kind ∈ Phrase.nothing.headsBefore follow,
      kind ∈ follow := fun _ hkind => hkind
  apply congr (bind hfirst hself rfl hnext)
  intro forest
  rw [derives_next_iff]
  constructor
  · rintro ⟨front, back, hfront, hback, rfl⟩
    obtain rfl := derives_nothing_iff.1 hback
    rwa [Forest.append_nil]
  · intro hderives
    exact ⟨forest, .nil, hderives, .nothing, forest.append_nil.symm⟩

/-- Passing over a token recognizes it, whatever is next. -/
theorem pass {kind : Kind} :
    (Recognizer.pass kind).Conforms (.kind kind) follow :=
  last take fun _ => pure ()

-- ============================================================ choices

/-- Accepting a token, and what depends on its kind, recognizes the
tokens with what depends on them. -/
theorem take_choice {kinds : List Kind} {next : Token → Recognizer α}
    (rest : Kind → Phrase)
    (hnext : ∀ token, token.kind ∈ kinds →
      (next token).Conforms (rest token.kind) follow)
    (hproductive : ∀ kind ∈ kinds, (rest kind).hasKinds = true)
    (hkinds : kinds ≠ []) :
    (Recognizer.take kinds >>= next).Conforms
      (.choice (kinds.map fun kind => .next (.kind kind) (rest kind)))
      follow where
  sound hbuilds := by
    obtain ⟨token, tail, rfl, hkind, hbuilds⟩ := hbuilds
    refine derives_choice_iff.2
      ⟨_, List.mem_map_of_mem hkind, derives_token_next_iff.2 ?_⟩
    exact ⟨token, tail, List.mem_singleton_self _,
      (hnext token hkind).sound hbuilds, rfl⟩
  complete hderives hafter := by
    obtain ⟨_, hmem, hderives⟩ := derives_choice_iff.1 hderives
    obtain ⟨kind, hkind, rfl⟩ := List.mem_map.1 hmem
    obtain ⟨token, tail, hsame, htail, rfl⟩ :=
      derives_token_next_iff.1 hderives
    obtain rfl := List.mem_singleton.1 hsame
    exact ⟨token, tail, rfl, hkind,
      (hnext token hkind).complete htail hafter⟩
  promises {tokens reason} hstalls := by
    have hbegins : ∀ kind ∈ kinds, (Phrase.choice (kinds.map
        fun kind => .next (.kind kind) (rest kind))).Begins [kind] := by
      intro kind hkind
      exact .choice (List.mem_map_of_mem hkind)
        (.next (.token (List.mem_singleton_self kind))
          (exists_derives (hproductive kind hkind)))
    rcases hstalls with ⟨rfl, rfl⟩ | ⟨token, tail, rfl, hkind, hstalls⟩
    · obtain ⟨kind, hkind⟩ := List.exists_mem_of_ne_nil kinds hkinds
      obtain ⟨forest, hforest, -⟩ := hbegins kind hkind
      exact ⟨.empty ⟨forest, hforest⟩, hbegins⟩
    · refine Phrase.Promises.imp
        (.after (.token (List.mem_singleton_self token.kind))
          ((hnext token hkind).promises hstalls)) fun forest hforest => ?_
      exact derives_choice_iff.2 ⟨_, List.mem_map_of_mem hkind, hforest⟩

/-- Looking at the next kind recognizes a choice, if each kind leads to an
alternative that can begin with it, and any other kind to some
alternative or to a failure that keeps its promises. -/
theorem look_choice {alternatives : List Phrase}
    {next : Kind → Recognizer α}
    (hheads : ∀ phrase ∈ alternatives, ∀ kind ∈ phrase.headsBefore follow,
      (next kind).Conforms phrase follow)
    (hother : ∀ kind,
      (∃ phrase ∈ alternatives, (next kind).Conforms phrase follow)
        ∨ ∃ reason, next kind = .refuse reason
            ∧ (Phrase.choice alternatives).Promises [] reason) :
    (peek >>= next).Conforms (.choice alternatives) follow where
  sound hbuilds := by
    obtain ⟨kind, hbuilds⟩ := hbuilds
    change (next kind).Builds derived _ _ _ at hbuilds
    rcases hother kind with ⟨phrase, hmem, hnext⟩ | ⟨reason, hrefuse, -⟩
    · exact derives_choice_iff.2 ⟨phrase, hmem, hnext.sound hbuilds⟩
    · rw [hrefuse] at hbuilds
      cases hbuilds
  complete hderives hafter := by
    obtain ⟨phrase, hmem, hderives⟩ := derives_choice_iff.1 hderives
    exact (hheads phrase hmem _ (hderives.firstKind_mem hafter)).complete
      hderives hafter
  promises hstalls := by
    obtain ⟨kind, hstalls⟩ := hstalls
    change (next kind).Stalls _ _ at hstalls
    rcases hother kind with ⟨phrase, hmem, hnext⟩ | ⟨reason, hrefuse, h⟩
    · exact (hnext.promises hstalls).imp fun forest hforest =>
        derives_choice_iff.2 ⟨phrase, hmem, hforest⟩
    · rw [hrefuse] at hstalls
      obtain ⟨rfl, rfl⟩ := hstalls
      exact h

/-- Looking at the next kind recognizes a choice, if each kind leads to an
alternative that can begin with it, and any other kind to a failure that
offers only kinds with which the choice can begin. -/
theorem look_refuse {alternatives : List Phrase}
    {next : Kind → Recognizer α} (reason : Reason)
    (hheads : ∀ phrase ∈ alternatives, ∀ kind ∈ phrase.headsBefore follow,
      (next kind).Conforms phrase follow)
    (hrefuse : ∀ kind,
      (∀ phrase ∈ alternatives, kind ∉ phrase.headsBefore follow) →
      next kind = .refuse reason)
    (hkinds : (Phrase.choice alternatives).hasKinds = true)
    (hoffers : ∀ kind ∈ reason.offers,
      kind ∈ (Phrase.choice alternatives).heads) :
    (peek >>= next).Conforms (.choice alternatives) follow := by
  refine look_choice hheads fun kind => ?_
  by_cases h : ∃ phrase ∈ alternatives, kind ∈ phrase.headsBefore follow
  · obtain ⟨phrase, hmem, hkind⟩ := h
    exact .inl ⟨phrase, hmem, hheads phrase hmem kind hkind⟩
  · refine .inr ⟨reason, hrefuse kind fun phrase hmem hkind =>
      h ⟨phrase, hmem, hkind⟩, .empty (exists_derives hkinds), ?_⟩
    exact fun offered hoffered =>
      begins_of_mem_heads hkinds (hoffers offered hoffered)

/-- Looking recognizes either of two phrases if a test tells the kinds
apart with which they can begin. -/
theorem look_either {test : Kind → Prop} [DecidablePred test]
    {one other : Recognizer α} (hone : one.Conforms phrase follow)
    (hother : other.Conforms second follow)
    (hfirst : ∀ kind ∈ phrase.headsBefore follow, test kind)
    (hsecond : ∀ kind ∈ second.headsBefore follow, ¬ test kind) :
    (peek >>= fun kind => if test kind then one else other).Conforms
      (.either phrase second) follow := by
  refine @look_choice _ _ [phrase, second] _ ?_ fun kind => ?_
  · intro alternative hmem kind hkind
    simp only [List.mem_cons, List.not_mem_nil, or_false] at hmem
    rcases hmem with rfl | rfl
    · rw [if_pos (hfirst kind hkind)]
      exact hone
    · rw [if_neg (hsecond kind hkind)]
      exact hother
  · by_cases htest : test kind
    · refine .inl ⟨phrase, List.mem_cons_self, ?_⟩
      rwa [if_pos htest]
    · refine .inl ⟨second, List.mem_cons_of_mem _ List.mem_cons_self, ?_⟩
      rwa [if_neg htest]

/-- What is taken at its own kinds and left at those that can follow is
optional. -/
theorem look_optional {test : Kind → Prop} [DecidablePred test]
    {one other : Recognizer α} (hone : one.Conforms phrase follow)
    (hother : other.Conforms .nothing follow)
    (hheads : ∀ kind ∈ phrase.headsBefore follow, test kind)
    (hfollow : ∀ kind ∈ follow, ¬ test kind) :
    (peek >>= fun kind => if test kind then one else other).Conforms
      (.optional phrase) follow := by
  apply (look_either hone hother hheads hfollow).congr
  intro forest
  rw [Phrase.optional, derives_either_iff, derives_either_iff]
  exact or_comm

end Conforms

end Recognizer

end JackSyntax
