/-
Text for a terminal: the characters that a terminal obeys instead of
showing are spelled out.

Not every control character is one of them. Of the first block, bell,
backspace, form feed, escape and delete are; tabs, line ends and the
others stand as they are. The second block is spelled out as a whole.
No such character is left in a text that has been spelled out
(`not_isObeyed_of_mem_spellOut`), and a text without any does not change
(`spellOut_eq_self`).
-/
namespace JackSyntax.Text

-- ==================================================== the characters

/-- The characters of the first block that are spelled out. -/
def obeyed : List Char := ['\x07', '\x08', '\x0c', '\x1b', '\x7f']

/-- The character is in the second block of control characters. -/
def isHighControl (c : Char) : Bool := 0x80 ≤ c.toNat && c.toNat ≤ 0x9f

/-- The character is one that a terminal obeys. -/
def isObeyed (c : Char) : Bool := c ∈ obeyed || isHighControl c

-- ====================================================== spelling out

/-- A number below 256 in two digits of base sixteen. -/
def hexPair (n : Nat) : List Char :=
  [Nat.digitChar (n / 16), Nat.digitChar (n % 16)]

/-- How one character is shown. The two blocks have forms of their own. -/
def spelling (c : Char) : List Char :=
  if c ∈ obeyed then ['\\', 'x'] ++ hexPair c.toNat
  else if isHighControl c then
    ['\\', 'u', '\x7b'] ++ hexPair c.toNat ++ ['\x7d']
  else [c]

/-- The text with every character that a terminal obeys spelled out. -/
def spellOut (text : String) : String :=
  String.ofList (text.toList.flatMap spelling)

example : spellOut "\x1b[1m\t\x0c" = "\\x1b[1m\t\\x0c" := by decide

example : spellOut "\u0085é" = "\\u\x7b85\x7dé" := by decide

-- ============================================================== laws

/-- Every character that is spelled out has a number of two digits. -/
theorem toNat_lt_of_isObeyed {c : Char} (h : isObeyed c) :
    c.toNat < 256 := by
  simp only [isObeyed, Bool.or_eq_true, decide_eq_true_eq] at h
  rcases h with h | h
  · simp only [obeyed, List.mem_cons, List.not_mem_nil, or_false] at h
    rcases h with rfl | rfl | rfl | rfl | rfl <;> decide
  · simp only [isHighControl, Bool.and_eq_true, decide_eq_true_eq] at h
    omega

/-- The digits are for showing. -/
theorem not_isObeyed_of_mem_hexPair {n : Nat} (hn : n < 256) {c : Char}
    (h : c ∈ hexPair n) : isObeyed c = false := by
  have shown : ∀ d < 16, isObeyed (Nat.digitChar d) = false := by decide
  simp only [hexPair, List.mem_cons, List.not_mem_nil, or_false] at h
  rcases h with rfl | rfl
  · exact shown _ (by omega)
  · exact shown _ (by omega)

/-- A spelling is for showing. -/
theorem not_isObeyed_of_mem_spelling {c d : Char} (h : d ∈ spelling c) :
    isObeyed d = false := by
  unfold spelling at h
  split at h
  · rename_i hlow
    have hc : c.toNat < 256 := toNat_lt_of_isObeyed (by simp [isObeyed, hlow])
    rcases List.mem_append.1 h with h | h
    · simp only [List.mem_cons, List.not_mem_nil, or_false] at h
      rcases h with rfl | rfl <;> decide
    · exact not_isObeyed_of_mem_hexPair hc h
  · split at h
    · rename_i hhigh
      have hc : c.toNat < 256 :=
        toNat_lt_of_isObeyed (by simp [isObeyed, hhigh])
      rcases List.mem_append.1 h with h | h
      · rcases List.mem_append.1 h with h | h
        · simp only [List.mem_cons, List.not_mem_nil, or_false] at h
          rcases h with rfl | rfl | rfl <;> decide
        · exact not_isObeyed_of_mem_hexPair hc h
      · rw [List.mem_singleton.1 h]
        decide
    · rename_i hlow hhigh
      rw [List.mem_singleton.1 h]
      simp [isObeyed, hlow, hhigh]

/-- Nothing that a terminal obeys is left. -/
theorem not_isObeyed_of_mem_spellOut {text : String} {c : Char}
    (h : c ∈ (spellOut text).toList) : isObeyed c = false := by
  rw [spellOut, String.toList_ofList] at h
  obtain ⟨_, _, hc⟩ := List.mem_flatMap.1 h
  exact not_isObeyed_of_mem_spelling hc

/-- A character for showing stands as it is. -/
theorem spelling_eq_singleton {c : Char} (h : isObeyed c = false) :
    spelling c = [c] := by
  simp only [isObeyed, Bool.or_eq_false_iff, decide_eq_false_iff_not] at h
  rw [spelling, if_neg h.1, h.2]
  rfl

/-- A text for showing stands as it is. -/
theorem spellOut_eq_self {text : String}
    (h : ∀ c ∈ text.toList, isObeyed c = false) : spellOut text = text := by
  have hflat : ∀ cs : List Char, (∀ c ∈ cs, isObeyed c = false) →
      cs.flatMap spelling = cs := by
    intro cs hcs
    induction cs with
    | nil => rfl
    | cons c cs ih =>
      rw [List.flatMap_cons, spelling_eq_singleton (hcs c List.mem_cons_self),
        ih fun d hd => hcs d (List.mem_cons_of_mem c hd)]
      rfl
  rw [spellOut, hflat _ h, String.ofList_toList]

end JackSyntax.Text
