import AccessPolicy.Collection.Distinct
import AccessPolicy.Profile.Order
import Mathlib.Data.List.TakeWhile
import Mathlib.Data.String.Basic

/-!
# Lists in order

A list in order is told by its members when no two of them can stand either way
round: lists with the same members in the same numbers are then sorted to one
list (`mergeSort_eq_of_perm`). Texts, permissions and first occurrences are such
lists, so their order of arrival leaves no trace. Members that can stand either way
round keep the order in which they came (`filter_mergeSort`).

Two lists one behind the other are sorted each by itself when the members of the
first may stand ahead of those of the second (`mergeSort_append`).
-/

namespace AccessPolicy

/-- Lists with the same members in the same numbers are sorted to one list, if no
two members can stand either way round. -/
theorem mergeSort_eq_of_perm {α : Type} {le : α → α → Bool}
    (trans : ∀ a b c, le a b = true → le b c = true → le a c = true)
    (total : ∀ a b, (le a b || le b a) = true) {xs ys : List α}
    (antisymm : ∀ a ∈ xs, ∀ b ∈ xs, le a b = true → le b a = true → a = b)
    (h : xs.Perm ys) : xs.mergeSort le = ys.mergeSort le := by
  have same := (List.mergeSort_perm xs le).trans (h.trans (List.mergeSort_perm ys le).symm)
  refine List.Perm.eq_of_pairwise ?_ (List.pairwise_mergeSort trans total xs)
    (List.pairwise_mergeSort trans total ys) same
  intro a b ha hb hab hba
  have hb' : b ∈ xs := h.mem_iff.2 (List.mem_mergeSort.1 hb)
  exact antisymm a (List.mem_mergeSort.1 ha) b hb' hab hba

/-- Members that can stand either way round keep the order in which they came. -/
theorem filter_mergeSort {α : Type} {le : α → α → Bool}
    (trans : ∀ a b c, le a b = true → le b c = true → le a c = true)
    (total : ∀ a b, (le a b || le b a) = true) (test : α → Bool) {xs : List α}
    (h : ∀ a ∈ xs, ∀ b ∈ xs, test a = true → test b = true → le a b = true) :
    (xs.mergeSort le).filter test = xs.filter test := by
  have ties : (xs.filter test).Pairwise fun a b => le a b = true :=
    List.pairwise_of_forall_mem_list fun a ha b hb => by
      rw [List.mem_filter] at ha hb
      exact h a ha.1 b hb.1 ha.2 hb.2
  have kept := (List.sublist_mergeSort trans total ties List.filter_sublist).filter test
  rw [List.filter_filter] at kept
  simp only [Bool.and_self] at kept
  exact (kept.eq_of_length ((List.mergeSort_perm xs le).filter test).length_eq.symm).symm

/-- In a list without repetition two members stand one way round only. -/
theorem not_sublist_swap {α : Type} {a b : α} {l : List α} (hl : l.Nodup)
    (hab : [a, b].Sublist l) : ¬ [b, a].Sublist l := by
  induction l with
  | nil => exact absurd hab (by simp)
  | cons x xs ih =>
    rw [List.nodup_cons] at hl
    intro hba
    rw [List.sublist_cons_iff] at hab hba
    rcases hab with hab | ⟨_, hab, hb⟩ <;> rcases hba with hba | ⟨_, hba, ha⟩
    · exact ih hl.2 hab hba
    · obtain ⟨rfl, rfl⟩ := List.cons.inj hba
      exact hl.1 (hab.subset (by simp))
    · obtain ⟨rfl, rfl⟩ := List.cons.inj hab
      exact hl.1 (hba.subset (by simp))
    · obtain ⟨rfl, rfl⟩ := List.cons.inj hab
      obtain ⟨rfl, rfl⟩ := List.cons.inj hba
      exact hl.1 (hb.subset (by simp))

/-! ## One list behind another -/

section

variable {α : Type} {le : α → α → Bool}

/-- A part that only holds what fails a test does not change what is taken from the
part ahead of it. -/
theorem takeWhile_dropWhile_append {test : α → Bool} (xs : List α) {ys : List α}
    (hys : ∀ y ∈ ys, test y = false) : (xs ++ ys).takeWhile test = xs.takeWhile test ∧
      (xs ++ ys).dropWhile test = xs.dropWhile test ++ ys := by
  induction xs with
  | nil => cases ys <;> simp_all
  | cons x xs ih =>
    by_cases hx : test x
    · simpa [hx] using ih
    · simp [hx]

/-- A member ahead of a list is sorted behind those that it cannot stand ahead of. -/
theorem mergeSort_cons_eq (trans : ∀ a b c, le a b = true → le b c = true → le a c = true)
    (total : ∀ a b, (le a b || le b a) = true) (x : α) (xs : List α) :
    (x :: xs).mergeSort le = (xs.mergeSort le).takeWhile (fun a => !le x a) ++
      x :: (xs.mergeSort le).dropWhile (fun a => !le x a) := by
  obtain ⟨front, back, hsort, hrest, hfront⟩ := List.mergeSort_cons trans total x xs
  have sorted := List.pairwise_mergeSort trans total (x :: xs)
  rw [hsort, List.pairwise_append, List.pairwise_cons] at sorted
  have hback : ∀ b ∈ back, (!le x b) = false := fun b hb => by
    rw [sorted.2.1.1 b hb, Bool.not_true]
  obtain ⟨taken, dropped⟩ := takeWhile_dropWhile_append front hback
  rw [hsort, hrest, taken, dropped, List.takeWhile_eq_self_iff.2 hfront,
    List.dropWhile_eq_nil_iff.2 hfront, List.nil_append]

/-- Where the members of a list may stand ahead of those of another, each of the two
is sorted by itself. -/
theorem mergeSort_append (trans : ∀ a b c, le a b = true → le b c = true → le a c = true)
    (total : ∀ a b, (le a b || le b a) = true) {xs ys : List α}
    (h : ∀ x ∈ xs, ∀ y ∈ ys, le x y = true) :
    (xs ++ ys).mergeSort le = xs.mergeSort le ++ ys.mergeSort le := by
  induction xs with
  | nil => rw [List.nil_append, List.mergeSort_nil, List.nil_append]
  | cons x xs ih =>
    have hys : ∀ b ∈ ys.mergeSort le, (!le x b) = false := fun b hb => by
      rw [h x List.mem_cons_self b (List.mem_mergeSort.1 hb), Bool.not_true]
    obtain ⟨taken, dropped⟩ := takeWhile_dropWhile_append (xs.mergeSort le) hys
    rw [List.cons_append, mergeSort_cons_eq trans total x (xs ++ ys),
      ih fun a ha => h a (List.mem_cons_of_mem x ha), taken, dropped,
      mergeSort_cons_eq trans total x xs, List.append_assoc, List.cons_append]

end

/-! ## Texts -/

theorem textLE_trans (a b c : String) (hab : decide (a ≤ b) = true)
    (hbc : decide (b ≤ c) = true) : decide (a ≤ c) = true :=
  decide_eq_true (String.le_trans (of_decide_eq_true hab) (of_decide_eq_true hbc))

theorem textLE_total (a b : String) : (decide (a ≤ b) || decide (b ≤ a)) = true := by
  simpa using String.le_total a b

theorem textLE_antisymm {a b : String} (hab : decide (a ≤ b) = true)
    (hba : decide (b ≤ a) = true) : a = b :=
  String.le_antisymm (of_decide_eq_true hab) (of_decide_eq_true hba)

/-- Members that are told by a text are put in the order of these texts in one way. -/
theorem mergeSort_on_eq_of_perm {α : Type} (text : α → String) {xs ys : List α}
    (inj : ∀ a ∈ xs, ∀ b ∈ xs, text a = text b → a = b) (h : xs.Perm ys) :
    (xs.mergeSort fun a b => decide (text a ≤ text b)) =
      ys.mergeSort fun a b => decide (text a ≤ text b) := by
  apply mergeSort_eq_of_perm
  · exact fun a b c => textLE_trans (text a) (text b) (text c)
  · exact fun a b => textLE_total (text a) (text b)
  · exact fun a ha b hb hab hba => inj a ha b hb (textLE_antisymm hab hba)
  · exact h

theorem sortTexts_eq_of_perm {xs ys : List String} (h : xs.Perm ys) :
    sortTexts xs = sortTexts ys :=
  mergeSort_eq_of_perm textLE_trans textLE_total (fun _ _ _ _ => textLE_antisymm) h

theorem pairwise_mergeSort_on {α : Type} (text : α → String) (xs : List α) :
    (xs.mergeSort fun a b => decide (text a ≤ text b)).Pairwise fun a b => text a ≤ text b := by
  have sorted := List.pairwise_mergeSort
    (fun a b c : α => textLE_trans (text a) (text b) (text c))
    (fun a b => textLE_total (text a) (text b)) xs
  exact sorted.imp of_decide_eq_true

theorem mergeSort_on_eq_self {α : Type} {text : α → String} {xs : List α}
    (h : xs.Pairwise fun a b => text a ≤ text b) :
    (xs.mergeSort fun a b => decide (text a ≤ text b)) = xs :=
  List.mergeSort_of_pairwise (h.imp decide_eq_true)

theorem pairwise_sortTexts (xs : List String) : (sortTexts xs).Pairwise (· ≤ ·) :=
  pairwise_mergeSort_on (fun a => a) xs

theorem sortTexts_eq_self {xs : List String} (h : xs.Pairwise (· ≤ ·)) : sortTexts xs = xs :=
  mergeSort_on_eq_self h

/-- Texts in order begin with the least of them. -/
theorem head?_eq_min? {xs ys : List String} (hxs : xs.Pairwise (· ≤ ·))
    (h : ∀ a, a ∈ xs ↔ a ∈ ys) : xs.head? = ys.min? := by
  cases xs with
  | nil =>
    have none : ys = [] := List.eq_nil_iff_forall_not_mem.2 fun a ha => nomatch (h a).2 ha
    rw [none]
    rfl
  | cons x xs =>
    rw [List.pairwise_cons] at hxs
    refine (List.min?_eq_some_iff.2 ⟨(h x).1 List.mem_cons_self, fun b hb => ?_⟩).symm
    rcases List.mem_cons.1 ((h b).2 hb) with rfl | hb
    · exact String.le_refl b
    · exact hxs.1 b hb

/-! ## First occurrences -/

/-- First occurrences of the same members differ in their order only. -/
theorem distinct_perm {α : Type} [DecidableEq α] {xs ys : List α}
    (h : ∀ a, a ∈ xs ↔ a ∈ ys) : (distinct xs).Perm (distinct ys) := by
  rw [List.perm_ext_iff_of_nodup (nodup_distinct xs) (nodup_distinct ys)]
  intro a
  rw [mem_distinct, mem_distinct, h a]

end AccessPolicy
