import AccessPolicy.Document.Basic
import AccessPolicy.Proofs.Profile.Stable

/-!
# Normal forms of documents

A document is merged when all of its profiles are, and sorted when its profiles come in
the order of their names and each is sorted itself. These are the documents that merging
and sorting leave as they are. So merging twice and sorting twice are merging and sorting
once, and what was merged and then sorted stays as it is under both
(`Document.canonical_stable`).
-/

namespace AccessPolicy

namespace Document

variable {d : Document}

/-! ## Documents that are merged -/

/-- All profiles of the document are merged. -/
def IsMerged (d : Document) : Prop := ∀ p ∈ d.profiles, p.IsMerged

theorem isMerged_merge (d : Document) : d.merge.IsMerged := by
  intro q hq
  obtain ⟨p, _, rfl⟩ := List.mem_map.1 hq
  exact p.isMerged_merge

theorem IsMerged.merge_eq (h : d.IsMerged) : d.merge = d := by
  have profiles : d.profiles.map Profile.merge = d.profiles :=
    (List.map_congr_left fun p hp => (h p hp).merge_eq).trans (List.map_id _)
  rw [merge, profiles]

theorem merge_eq_self_iff : d.merge = d ↔ d.IsMerged :=
  ⟨fun h => h ▸ d.isMerged_merge, IsMerged.merge_eq⟩

/-! ## Documents in order -/

/-- The profiles come in the order of their names, and each is sorted. -/
structure IsSorted (d : Document) : Prop where
  names : d.profiles.Pairwise fun p q => p.name ≤ q.name
  profiles : ∀ p ∈ d.profiles, p.IsSorted

theorem mem_profiles_sort {q : Profile} :
    q ∈ d.sort.profiles ↔ ∃ p ∈ d.profiles, p.sort = q := by
  rw [sort, List.mem_mergeSort, List.mem_map]

theorem isSorted_sort (d : Document) : d.sort.IsSorted where
  names := pairwise_mergeSort_on Profile.name (d.profiles.map Profile.sort)
  profiles q hq := by
    obtain ⟨p, _, rfl⟩ := mem_profiles_sort.1 hq
    exact p.isSorted_sort

theorem IsSorted.sort_eq (h : d.IsSorted) : d.sort = d := by
  have profiles : d.profiles.map Profile.sort = d.profiles :=
    (List.map_congr_left fun p hp => (h.profiles p hp).sort_eq).trans (List.map_id _)
  rw [sort, profiles, mergeSort_on_eq_self h.names]

theorem sort_eq_self_iff : d.sort = d ↔ d.IsSorted :=
  ⟨fun h => h ▸ d.isSorted_sort, IsSorted.sort_eq⟩

/-- Sorting keeps a document merged. -/
theorem IsMerged.sort (h : d.IsMerged) : d.sort.IsMerged := by
  intro q hq
  obtain ⟨p, hp, rfl⟩ := mem_profiles_sort.1 hq
  exact (h p hp).sort

/-! ## Normal forms -/

/-- What merging leaves as it is are the merged profiles and documents, and what sorting
leaves are the sorted ones. Each of the two brings about its own form, and sorting what
was merged brings about both. -/
theorem canonical_stable :
    (∀ p : Profile, (p.merge = p ↔ p.IsMerged) ∧ (p.sort = p ↔ p.IsSorted) ∧
      p.merge.merge = p.merge ∧ p.sort.sort = p.sort ∧
      p.merge.sort.merge = p.merge.sort ∧ p.merge.sort.sort = p.merge.sort) ∧
    ∀ d : Document, (d.merge = d ↔ d.IsMerged) ∧ (d.sort = d ↔ d.IsSorted) ∧
      d.merge.merge = d.merge ∧ d.sort.sort = d.sort ∧
      d.merge.sort.merge = d.merge.sort ∧ d.merge.sort.sort = d.merge.sort :=
  ⟨fun p => ⟨Profile.merge_eq_self_iff, Profile.sort_eq_self_iff, p.isMerged_merge.merge_eq,
      p.isSorted_sort.sort_eq, p.isMerged_merge.sort.merge_eq, p.merge.isSorted_sort.sort_eq⟩,
    fun d => ⟨merge_eq_self_iff, sort_eq_self_iff, d.isMerged_merge.merge_eq,
      d.isSorted_sort.sort_eq, d.isMerged_merge.sort.merge_eq, d.merge.isSorted_sort.sort_eq⟩⟩

end Document

end AccessPolicy
