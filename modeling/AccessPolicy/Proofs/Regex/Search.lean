import AccessPolicy.Proofs.Regex.Matches
import AccessPolicy.Regex.Search

/-!
# A search finds what matches

`Regex.advance` moves sets of positions; `Regex.Matches` relates positions one
by one. Here the two are the same:

* **one set** — position `j` is in `advance text r starts` iff some position in
  `starts` begins a match of `r` that ends at `j` (`testBit_advance`);
* **repetition** — a match of a star needs no more steps than the text has
  characters, because a step that takes no character can be left out
  (`Hops.of_star`), so the bounded closure loses nothing;
* **the search** — `isFound` answers the question that `Found` asks
  (`isFound_iff`).
-/

namespace AccessPolicy.Regex

variable {text : List Char}

/-! ## Steps of a relation -/

/-- At most `n` steps of a relation lead from one position to another. -/
inductive Hops (R : Nat → Nat → Prop) : Nat → Nat → Nat → Prop
  | stay {n i : Nat} : Hops R n i i
  | hop {n i j k : Nat} : R i j → Hops R n j k → Hops R (n + 1) i k

theorem Hops.mono {R : Nat → Nat → Prop} {m n i j : Nat} (h : Hops R m i j) (hmn : m ≤ n) :
    Hops R n i j := by
  induction h generalizing n with
  | stay => exact .stay
  | hop hR _ ih =>
    cases n with
    | zero => omega
    | succ n => exact .hop hR (ih (by omega))

/-- A set that every step stays in is not left. -/
theorem Hops.closed {R : Nat → Nat → Prop} {S : Nat → Prop} (hS : ∀ i j, S i → R i j → S j)
    {n i j : Nat} (h : Hops R n i j) (hi : S i) : S j := by
  induction h with
  | stay => exact hi
  | hop hR _ ih => exact ih (hS _ _ hi hR)

/-- Steps of a matching relation make up a match of the star. -/
theorem Hops.toStar {r : Regex} {n i j : Nat} (h : Hops (Matches text r) n i j) :
    Matches text (star r) i j := by
  induction h with
  | stay => exact .starNil
  | hop hR _ ih => exact .starCons hR ih

/-- A match of the star takes at most as many steps as characters. -/
theorem Hops.of_star {r : Regex} {n i j : Nat} (h : Matches text (star r) i j)
    (hn : j ≤ i + n) : Hops (Matches text r) n i j := by
  generalize hs : star r = s at h
  induction h generalizing n with
  | starNil => exact .stay
  | starCons hfirst hrest _ ih =>
    cases hs
    have hle := hfirst.le
    have hle' := hrest.le
    rcases Nat.eq_or_lt_of_le hle with rfl | hlt
    · exact ih hn rfl
    · cases n with
      | zero => omega
      | succ n => exact .hop hfirst (ih (by omega) rfl)
  | _ => cases hs

/-! ## Sets of positions -/

namespace Positions

theorem testBit_ofAssertion (a : Assertion) (before : Option Char) (text : List Char) (i : Nat) :
    (ofAssertion a before text).testBit i =
      (decide (i ≤ text.length) &&
        a.holds (if i = 0 then before else charBefore? text i) text[i]?) := by
  induction text generalizing before i with
  | nil =>
    cases i with
    | zero => cases h : a.holds before none <;> simp [ofAssertion, h]
    | succ i => cases h : a.holds before none <;> simp [ofAssertion, h, Nat.testBit_succ]
  | cons c cs ih =>
    cases i with
    | zero => cases h : a.holds before (some c) <;> simp [ofAssertion, h]
    | succ i =>
      have half : ofAssertion a before (c :: cs) / 2 = ofAssertion a (some c) cs := by
        cases h : a.holds before (some c) <;>
          simp only [ofAssertion, h, Bool.toNat_true, Bool.toNat_false] <;> omega
      rw [Nat.testBit_succ, half, ih]
      cases i with
      | zero => simp [charBefore?]
      | succ i => simp [charBefore?]

/-- The closure holds what a bounded number of steps reaches. -/
theorem testBit_closure {step : Nat → Nat} {R : Nat → Nat → Prop}
    (hstep : ∀ s j, (step s).testBit j = true ↔ ∃ i, s.testBit i = true ∧ R i j)
    (rounds s j : Nat) :
    (closure step rounds s).testBit j = true ↔
      ∃ i, s.testBit i = true ∧ Hops R rounds i j := by
  induction rounds generalizing s with
  | zero =>
    refine ⟨?_, ?_⟩
    · intro h
      exact ⟨j, h, .stay⟩
    · intro h
      obtain ⟨i, hi, hops⟩ := h
      cases hops
      exact hi
  | succ rounds ih =>
    unfold closure
    split
    · -- nothing new is reached, so nothing ever will be
      rename_i fixed
      have stays : ∀ i k, s.testBit i = true → R i k → s.testBit k = true := by
        intro i k hi hR
        rw [← fixed, Nat.testBit_or, (hstep s k).2 ⟨i, hi, hR⟩, Bool.or_true]
      refine ⟨?_, ?_⟩
      · intro h
        exact ⟨j, h, .stay⟩
      · intro h
        obtain ⟨i, hi, hops⟩ := h
        exact hops.closed (S := fun k => s.testBit k = true) stays hi
    · rw [ih]
      simp only [Nat.testBit_or, Bool.or_eq_true, hstep]
      refine ⟨?_, ?_⟩
      · intro h
        obtain ⟨i, hi | ⟨k, hk, hR⟩, hops⟩ := h
        · exact ⟨i, hi, hops.mono (Nat.le_succ _)⟩
        · exact ⟨k, hk, .hop hR hops⟩
      · intro h
        obtain ⟨i, hi, hops⟩ := h
        cases hops with
        | stay => exact ⟨_, .inl hi, .stay⟩
        | hop hR hops => exact ⟨_, .inr ⟨i, hi, hR⟩, hops⟩

end Positions

/-! ## The search -/

/-- The closure of a matching relation is the matching relation of the star. -/
theorem testBit_closure_star {r : Regex} {step : Nat → Nat}
    (hstep : ∀ s j, (step s).testBit j = true ↔ ∃ i, s.testBit i = true ∧ Matches text r i j)
    (s j : Nat) :
    (Positions.closure step text.length s).testBit j = true ↔
      ∃ i, s.testBit i = true ∧ Matches text (star r) i j := by
  rw [Positions.testBit_closure hstep]
  refine ⟨?_, ?_⟩
  · intro h
    obtain ⟨i, hi, hops⟩ := h
    exact ⟨i, hi, hops.toStar⟩
  · intro h
    obtain ⟨i, hi, hm⟩ := h
    have hle := hm.le
    have hmax := hm.le_max
    exact ⟨i, hi, Hops.of_star hm (by omega)⟩

/-- Going on from the positions that are reached is going on from where they are
reached from. -/
theorem exists_reached {S : Nat → Prop} {P Q : Nat → Nat → Prop} {j : Nat} :
    (∃ k, (∃ i, S i ∧ P i k) ∧ Q k j) ↔ ∃ i, S i ∧ ∃ k, P i k ∧ Q k j := by
  refine ⟨fun h => ?_, fun h => ?_⟩
  · obtain ⟨k, ⟨i, hi, hP⟩, hQ⟩ := h
    exact ⟨i, hi, k, hP, hQ⟩
  · obtain ⟨i, hi, k, hP, hQ⟩ := h
    exact ⟨k, ⟨i, hi, hP⟩, hQ⟩

theorem testBit_advance_set (c : CharSet) (starts j : Nat) :
    (advance text (set c) starts).testBit j = true ↔
      ∃ i, starts.testBit i = true ∧ Matches text (set c) i j := by
  simp only [matches_set]
  cases j with
  | zero => simp [advance, Nat.testBit_zero]
  | succ j =>
    simp only [advance, Nat.testBit_succ, Nat.mul_div_cancel _ (by decide : 0 < 2),
      Nat.testBit_and, Positions.testBit_ofChars, Bool.and_eq_true, Option.any_eq_true]
    refine ⟨fun h => ⟨j, h.1, rfl, h.2⟩, fun h => ?_⟩
    obtain ⟨i, hi, hj, htaken⟩ := h
    obtain rfl : j = i := by omega
    exact ⟨hi, htaken⟩

theorem testBit_advance_assert (a : Assertion) (starts j : Nat) :
    (advance text (assert a) starts).testBit j = true ↔
      ∃ i, starts.testBit i = true ∧ Matches text (assert a) i j := by
  have before : (if j = 0 then none else charBefore? text j) = charBefore? text j := by
    cases j <;> simp [charBefore?]
  simp only [advance, matches_assert, Nat.testBit_and, Positions.testBit_ofAssertion, before,
    Bool.and_eq_true, decide_eq_true_eq]
  refine ⟨fun h => ⟨j, h.1, rfl, h.2⟩, fun h => ?_⟩
  obtain ⟨i, hi, rfl, hholds⟩ := h
  exact ⟨hi, hholds⟩

/-- A position is reached iff a match that begins in the set ends there. -/
theorem testBit_advance (r : Regex) (starts j : Nat) :
    (advance text r starts).testBit j = true ↔
      ∃ i, starts.testBit i = true ∧ Matches text r i j := by
  induction r generalizing starts j with
  | empty => simp only [advance, matches_empty, exists_eq_right]
  | set c => exact testBit_advance_set c starts j
  | assert a => exact testBit_advance_assert a starts j
  | group r ih => simp only [advance, ih, matches_group]
  | cat r s ihr ihs =>
    simp only [advance, ihs, ihr, matches_cat]
    exact exists_reached
  | alt r s ihr ihs =>
    simp only [advance, Nat.testBit_or, Bool.or_eq_true, ihr, ihs, matches_alt, and_or_left,
      exists_or]
  | star r ih => exact testBit_closure_star ih starts j
  | plus r ih =>
    simp only [advance, testBit_closure_star ih, ih, matches_plus]
    exact exists_reached
  | opt r ih =>
    simp only [advance, Nat.testBit_or, Bool.or_eq_true, ih, matches_opt, and_or_left,
      exists_or, exists_eq_right]

/-- The search answers whether the expression matches a part of the text. -/
theorem isFound_iff (r : Regex) (text : List Char) :
    r.isFound text = true ↔ Found r text := by
  have nonzero : r.isFound text = true ↔ r.advance text (Positions.all text) ≠ 0 := by
    simp [isFound]
  rw [nonzero, Found]
  refine ⟨?_, ?_⟩
  · intro h
    obtain ⟨j, hj⟩ := Nat.exists_testBit_of_ne_zero h
    obtain ⟨i, hi, hm⟩ := (testBit_advance r _ j).1 hj
    rw [Positions.testBit_all, decide_eq_true_eq] at hi
    exact ⟨i, j, hi, hm⟩
  · intro h hzero
    obtain ⟨i, j, hi, hm⟩ := h
    have hj := (testBit_advance r (Positions.all text) j).2
      ⟨i, by rw [Positions.testBit_all, decide_eq_true_eq]; exact hi, hm⟩
    rw [hzero, Nat.zero_testBit] at hj
    exact Bool.false_ne_true hj

end AccessPolicy.Regex
