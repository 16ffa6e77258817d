/-!
# First occurrences

`distinctBy key` keeps of all members with the same key the first, and keeps
those in their order.
-/

namespace AccessPolicy

variable {α κ : Type} [DecidableEq κ]

/-- The members whose key no member before them has. -/
def distinctBy (key : α → κ) : List α → List α
  | [] => []
  | a :: as => a :: (distinctBy key as).filter fun b => key b ≠ key a

/-- The members that do not stand further ahead already. -/
def distinct {α : Type} [DecidableEq α] (as : List α) : List α :=
  distinctBy id as

theorem mem_of_mem_distinctBy {key : α → κ} {as : List α} {a : α}
    (h : a ∈ distinctBy key as) : a ∈ as := by
  induction as with
  | nil => simp [distinctBy] at h
  | cons b as ih =>
    simp only [distinctBy, List.mem_cons, List.mem_filter] at h
    rcases h with rfl | ⟨h, _⟩
    · exact List.mem_cons_self
    · exact List.mem_cons_of_mem _ (ih h)

/-- Every key keeps a member. -/
theorem exists_mem_distinctBy (key : α → κ) {as : List α} {a : α} (h : a ∈ as) :
    ∃ b ∈ distinctBy key as, key b = key a := by
  induction as with
  | nil => simp at h
  | cons c as ih =>
    rcases List.mem_cons.1 h with rfl | h
    · exact ⟨a, by simp [distinctBy], rfl⟩
    · obtain ⟨b, hb, hkey⟩ := ih h
      by_cases hc : key b = key c
      · exact ⟨c, by simp [distinctBy], hc.symm.trans hkey⟩
      · exact ⟨b, by simp [distinctBy, hb, hc], hkey⟩

/-- No two members that are kept have the same key. -/
theorem pairwise_distinctBy (key : α → κ) (as : List α) :
    (distinctBy key as).Pairwise fun a b => key a ≠ key b := by
  induction as with
  | nil => simp [distinctBy]
  | cons a as ih =>
    simp only [distinctBy, List.pairwise_cons, List.mem_filter]
    exact ⟨fun b hb heq => by simp [heq] at hb, ih.filter _⟩

theorem mem_distinct {α : Type} [DecidableEq α] {as : List α} {a : α} :
    a ∈ distinct as ↔ a ∈ as := by
  constructor
  · exact mem_of_mem_distinctBy
  · intro h
    obtain ⟨b, hb, hkey⟩ := exists_mem_distinctBy id h
    simp only [id_eq] at hkey
    exact hkey ▸ hb

theorem nodup_distinct {α : Type} [DecidableEq α] (as : List α) : (distinct as).Nodup :=
  pairwise_distinctBy id as

end AccessPolicy
