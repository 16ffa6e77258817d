import AccessPolicy.Collection.Distinct
import Mathlib.Data.List.Basic

/-!
# First occurrences in parts

First occurrences are found part by part: of the second part of a list those are
left whose key does not occur in the first (`distinctBy_append`). So members that
occur again may be dropped early, before each member is replaced by others
(`distinctBy_flatMap_distinctBy`).
-/

namespace AccessPolicy

variable {α κ : Type} [DecidableEq κ] {key : α → κ}

/-- The keys that the members of a list do not have. -/
def freshFor (key : α → κ) (as : List α) (k : κ) : Bool := decide (∀ a ∈ as, key a ≠ k)

/-- Members can be dropped by their keys before or after. -/
theorem distinctBy_filter (key : α → κ) (p : κ → Bool) (as : List α) :
    distinctBy key (as.filter fun a => p (key a)) =
      (distinctBy key as).filter fun a => p (key a) := by
  induction as with
  | nil => rfl
  | cons a as ih =>
    by_cases ha : p (key a) = true
    · rw [List.filter_cons_of_pos (p := fun a => p (key a)) ha, distinctBy, distinctBy,
        List.filter_cons_of_pos (p := fun a => p (key a)) ha, ih, List.filter_comm]
    · rw [List.filter_cons_of_neg (p := fun a => p (key a)) ha, distinctBy,
        List.filter_cons_of_neg (p := fun a => p (key a)) ha, ih, List.filter_filter]
      -- a member with the key that is dropped would be dropped itself
      refine List.filter_congr fun b _ => ?_
      by_cases hb : key b = key a
      · simp [hb, ha]
      · simp [hb]

theorem distinctBy_append (key : α → κ) (as bs : List α) :
    distinctBy key (as ++ bs) =
      distinctBy key as ++ (distinctBy key bs).filter fun b => freshFor key as (key b) := by
  induction as with
  | nil => simp [distinctBy, freshFor]
  | cons a as ih =>
    rw [List.cons_append, distinctBy, ih, List.filter_append, List.filter_filter, distinctBy,
      List.cons_append]
    congr 2
    refine List.filter_congr fun b _ => ?_
    by_cases hb : key b = key a
    · simp [hb, freshFor]
    · simp [hb, Ne.symm hb, freshFor]

theorem distinctBy_sublist (key : α → κ) (as : List α) : (distinctBy key as).Sublist as := by
  induction as with
  | nil => exact List.Sublist.slnil
  | cons a as ih => exact (List.filter_sublist.trans ih).cons_cons a

/-- Where no key comes twice nothing is dropped. -/
theorem distinctBy_eq_self {as : List α} (h : as.Pairwise fun a b => key a ≠ key b) :
    distinctBy key as = as := by
  induction as with
  | nil => rfl
  | cons a as ih =>
    rw [List.pairwise_cons] at h
    rw [distinctBy, ih h.2, List.filter_eq_self.2]
    exact fun b hb => decide_eq_true (h.1 b hb).symm

/-- Members with one key that are the same member are kept or dropped together. -/
theorem mem_distinctBy {as : List α} (h : ∀ a ∈ as, ∀ b ∈ as, key a = key b → a = b) {a : α} :
    a ∈ distinctBy key as ↔ a ∈ as := by
  refine ⟨mem_of_mem_distinctBy, fun ha => ?_⟩
  obtain ⟨b, hb, hkey⟩ := exists_mem_distinctBy key ha
  rwa [← h b (mem_of_mem_distinctBy hb) a ha hkey]

/-- What stands for a member adds nothing new behind what stood for it before. -/
theorem filter_freshFor_flatMap (key : α → κ) (f : α → List α) {a : α} {bs : List α}
    (h : ∀ b ∈ bs, key b = key a → b = a) :
    ((bs.filter fun b => key b ≠ key a).flatMap f).filter
        (fun c => freshFor key (f a) (key c)) =
      (bs.flatMap f).filter fun c => freshFor key (f a) (key c) := by
  induction bs with
  | nil => rfl
  | cons b bs ih =>
    obtain ⟨hb, hbs⟩ := List.forall_mem_cons.1 h
    by_cases hkey : key b = key a
    · have none : (f b).filter (fun c => freshFor key (f a) (key c)) = [] := by
        rw [hb hkey, List.filter_eq_nil_iff]
        intro c hc
        simpa [freshFor] using ⟨c, hc, rfl⟩
      rw [List.filter_cons_of_neg (by simpa using hkey), List.flatMap_cons,
        List.filter_append, none, List.nil_append, ih hbs]
    · rw [List.filter_cons_of_pos (by simpa using hkey), List.flatMap_cons,
        List.flatMap_cons, List.filter_append, List.filter_append, ih hbs]

/-- Members that occur again add nothing new when others stand for each of them. -/
theorem distinctBy_flatMap_distinctBy (key : α → κ) (f : α → List α) {as : List α}
    (h : ∀ a ∈ as, ∀ b ∈ as, key a = key b → a = b) :
    distinctBy key ((distinctBy key as).flatMap f) = distinctBy key (as.flatMap f) := by
  induction as with
  | nil => rfl
  | cons a as ih =>
    have known : ∀ b ∈ distinctBy key as, key b = key a → b = a := fun b hb =>
      h b (List.mem_cons_of_mem _ (mem_of_mem_distinctBy hb)) a List.mem_cons_self
    have rest := ih fun b hb c hc => h b (List.mem_cons_of_mem _ hb) c (List.mem_cons_of_mem _ hc)
    rw [distinctBy, List.flatMap_cons, List.flatMap_cons, distinctBy_append, distinctBy_append,
      ← distinctBy_filter key (freshFor key (f a)), filter_freshFor_flatMap key f known,
      distinctBy_filter, rest]

/-! ## Members as their own keys -/

theorem distinct_eq_self {α : Type} [DecidableEq α] {as : List α} (h : as.Nodup) :
    distinct as = as :=
  distinctBy_eq_self h

/-- First occurrences may be taken early. -/
theorem distinct_distinct_append {α : Type} [DecidableEq α] (as bs : List α) :
    distinct (distinct as ++ bs) = distinct (as ++ bs) := by
  have parts : ∀ cs : List α,
      distinct (cs ++ bs) = distinct cs ++ (distinct bs).filter (freshFor id cs) :=
    fun cs => distinctBy_append id cs bs
  have fresh : freshFor id (distinct as) = freshFor id as := by
    funext k
    simp only [freshFor, mem_distinct]
  rw [parts, parts, distinct_eq_self (nodup_distinct as), fresh]

end AccessPolicy
