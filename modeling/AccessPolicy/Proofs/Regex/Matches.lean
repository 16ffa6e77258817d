import AccessPolicy.Regex.Basic

/-!
# What the forms of expressions match

One lemma for each form of expression tells what it matches by what its parts
match. Sequences and choices of any number of parts follow (`matches_catAll`,
`matches_altAll`), and so does what the assertions about both ends of the text
say.
-/

namespace AccessPolicy.Regex

variable {text : List Char} {r s : Regex} {i j : Nat}

/-! ## Where matches end -/

/-- A match does not run backwards. -/
theorem Matches.le (h : Matches text r i j) : i ≤ j := by
  induction h <;> omega

/-- A match that begins in the text ends in the text. From a position behind
the text no character can be taken. -/
theorem Matches.le_max (h : Matches text r i j) : j ≤ max i text.length := by
  induction h with
  | set hc _ =>
    have := (List.getElem?_eq_some_iff.1 hc).1
    omega
  | _ => omega

/-! ## One form each -/

theorem matches_empty : Matches text empty i j ↔ i = j := by
  refine ⟨fun h => ?_, fun h => ?_⟩
  · cases h
    rfl
  · rw [h]
    exact .empty

theorem matches_set {c : CharSet} : Matches text (set c) i j ↔
    j = i + 1 ∧ ∃ d, text[i]? = some d ∧ c.contains d = true := by
  refine ⟨fun h => ?_, fun h => ?_⟩
  · cases h with
    | set hd hc => exact ⟨rfl, _, hd, hc⟩
  · obtain ⟨rfl, d, hd, hc⟩ := h
    exact .set hd hc

theorem matches_assert {a : Assertion} : Matches text (assert a) i j ↔
    i = j ∧ i ≤ text.length ∧ a.holds (charBefore? text i) text[i]? = true := by
  refine ⟨fun h => ?_, fun h => ?_⟩
  · cases h with
    | assert hle ha => exact ⟨rfl, hle, ha⟩
  · obtain ⟨rfl, hle, ha⟩ := h
    exact .assert hle ha

theorem matches_group : Matches text (group r) i j ↔ Matches text r i j := by
  refine ⟨fun h => ?_, .group⟩
  cases h with
  | group h => exact h

theorem matches_cat : Matches text (cat r s) i j ↔
    ∃ k, Matches text r i k ∧ Matches text s k j := by
  refine ⟨fun h => ?_, fun ⟨_, hr, hs⟩ => .cat hr hs⟩
  cases h with
  | cat hr hs => exact ⟨_, hr, hs⟩

theorem matches_alt : Matches text (alt r s) i j ↔ Matches text r i j ∨ Matches text s i j := by
  refine ⟨fun h => ?_, fun h => h.elim .altLeft .altRight⟩
  cases h with
  | altLeft h => exact .inl h
  | altRight h => exact .inr h

theorem matches_plus : Matches text (plus r) i j ↔
    ∃ k, Matches text r i k ∧ Matches text (star r) k j := by
  refine ⟨fun h => ?_, fun ⟨_, hr, hs⟩ => .plus hr hs⟩
  cases h with
  | plus hr hs => exact ⟨_, hr, hs⟩

theorem matches_opt : Matches text (opt r) i j ↔ i = j ∨ Matches text r i j := by
  refine ⟨fun h => ?_, fun h => ?_⟩
  · cases h with
    | optNil => exact .inl rfl
    | optSome h => exact .inr h
  · rcases h with rfl | h
    · exact .optNil
    · exact .optSome h

/-! ## Several parts -/

/-- The parts match in sequence between two positions. -/
def MatchesAll (text : List Char) : List Regex → Nat → Nat → Prop
  | [], i, j => i = j
  | r :: rs, i, j => ∃ k, Matches text r i k ∧ MatchesAll text rs k j

@[simp] theorem matchesAll_nil : MatchesAll text [] i j ↔ i = j := Iff.rfl

theorem matchesAll_cons {rs : List Regex} : MatchesAll text (r :: rs) i j ↔
    ∃ k, Matches text r i k ∧ MatchesAll text rs k j :=
  Iff.rfl

@[simp] theorem matchesAll_singleton : MatchesAll text [r] i j ↔ Matches text r i j := by
  simp [matchesAll_cons]

theorem matchesAll_append {rs ss : List Regex} : MatchesAll text (rs ++ ss) i j ↔
    ∃ k, MatchesAll text rs i k ∧ MatchesAll text ss k j := by
  induction rs generalizing i with
  | nil => simp
  | cons r rs ih =>
    simp only [List.cons_append, matchesAll_cons, ih]
    refine ⟨fun h => ?_, fun h => ?_⟩
    · obtain ⟨m, hr, k, hrs, hss⟩ := h
      exact ⟨k, ⟨m, hr, hrs⟩, hss⟩
    · obtain ⟨k, ⟨m, hr, hrs⟩, hss⟩ := h
      exact ⟨m, hr, k, hrs, hss⟩

theorem matches_catAll {rs : List Regex} :
    Matches text (catAll rs) i j ↔ MatchesAll text rs i j := by
  induction rs generalizing i with
  | nil => exact matches_empty
  | cons r rs ih =>
    cases rs with
    | nil => simp [catAll]
    | cons s rs =>
      have front : catAll (r :: s :: rs) = cat r (catAll (s :: rs)) := rfl
      rw [front, matches_cat, matchesAll_cons]
      exact exists_congr fun k => and_congr_right fun _ => ih

theorem matches_altAll {rs : List Regex} (hne : rs ≠ []) :
    Matches text (altAll rs) i j ↔ ∃ r ∈ rs, Matches text r i j := by
  induction rs with
  | nil => exact absurd rfl hne
  | cons r rs ih =>
    cases rs with
    | nil => simp [altAll]
    | cons s rs =>
      have front : altAll (r :: s :: rs) = alt r (altAll (s :: rs)) := rfl
      rw [front, matches_alt, ih (List.cons_ne_nil s rs)]
      simp only [List.mem_cons, exists_eq_or_imp]

/-! ## Both ends of the text -/

theorem matches_textStart : Matches text (assert .textStart) i j ↔ i = 0 ∧ j = 0 := by
  rw [matches_assert]
  refine ⟨fun h => ?_, fun h => ?_⟩
  · obtain ⟨rfl, hle, ha⟩ := h
    cases i with
    | zero => exact ⟨rfl, rfl⟩
    | succ i =>
      have : i < text.length := hle
      simp [Assertion.holds, charBefore?, this] at ha
  · obtain ⟨rfl, rfl⟩ := h
    exact ⟨rfl, Nat.zero_le _, rfl⟩

theorem matches_textEnd :
    Matches text (assert .textEnd) i j ↔ i = text.length ∧ j = text.length := by
  rw [matches_assert]
  refine ⟨fun h => ?_, fun h => ?_⟩
  · obtain ⟨rfl, hle, ha⟩ := h
    have : text.length ≤ i := by simpa [Assertion.holds] using ha
    omega
  · obtain ⟨rfl, rfl⟩ := h
    exact ⟨rfl, Nat.le_refl _, by simp [Assertion.holds]⟩

end AccessPolicy.Regex
