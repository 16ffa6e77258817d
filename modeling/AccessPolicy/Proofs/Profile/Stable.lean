import AccessPolicy.Proofs.Collection.Distinct
import AccessPolicy.Proofs.Profile.Ordered
import Mathlib.Data.List.Nodup

/-!
# Profiles that merging and sorting leave as they are

Merging leaves a profile as it is when, on every level, no two rules stand on the same
terms and no rule repeats anything (`Profile.merge_eq_self_iff`). Sorting leaves it when,
on every level, attachments, permissions and items are in order
(`Profile.sort_eq_self_iff`). What was merged has the first form and what was sorted has
the second, and sorting keeps the first, because it changes nothing but the order of
lists.
-/

namespace AccessPolicy

namespace Rule

/-- The attachments and permissions are in order. -/
structure IsSorted (r : Rule) : Prop where
  attachments : r.attachments.Pairwise (· ≤ ·)
  permissions : r.permissions.Pairwise fun p q => p.toText ≤ q.toText

theorem isSorted_sort (r : Rule) : r.sort.IsSorted :=
  ⟨pairwise_sortTexts r.attachments, pairwise_mergeSort_on Permission.toText r.permissions⟩

theorem IsSorted.sort_eq {r : Rule} (h : r.IsSorted) : r.sort = r := by
  rw [sort, sortTexts_eq_self h.attachments, mergeSort_on_eq_self h.permissions]

theorem IsDistinct.distinct_eq {r : Rule} (h : r.IsDistinct) : r.distinct = r := by
  rw [Rule.distinct, distinct_eq_self h.1, distinct_eq_self h.2]

theorem IsDistinct.sort {r : Rule} (h : r.IsDistinct) : r.sort.IsDistinct :=
  ⟨(List.mergeSort_perm _ _).nodup_iff.2 h.1, (List.mergeSort_perm _ _).nodup_iff.2 h.2⟩

end Rule

namespace Profile

/-! ## Profiles that are merged -/

/-- The rules of the profile itself stand on different terms and repeat nothing. -/
structure HasDistinctRules (p : Profile) : Prop where
  terms : (termsOf p.items).Nodup
  rules : ∀ r ∈ p.rules, r.IsDistinct

/-- So do those of all profiles in it. -/
def IsMerged (p : Profile) : Prop := ∀ c ∈ p.walk, c.HasDistinctRules

theorem isMerged_iff {p : Profile} :
    p.IsMerged ↔ p.HasDistinctRules ∧ ∀ c, .profile c ∈ p.items → c.IsMerged :=
  forall_mem_walk

theorem hasDistinctRules_merge (p : Profile) : p.merge.HasDistinctRules := by
  refine ⟨?_, fun r hr => isDistinct_mergeItems (mergeNested p.items) r ?_⟩
  · rw [items_merge, termsOf_mergeItems]
    exact nodup_distinct _
  · rw [← items_merge]
    exact mem_rules.1 hr

theorem isMerged_merge (p : Profile) : p.merge.IsMerged := by
  intro c hc
  obtain ⟨b, _, rfl⟩ := (keeps_merge.mem_walk p c).1 hc
  exact b.hasDistinctRules_merge

theorem mergeItems_eq_self {items : List (Item Profile)} (hterms : (termsOf items).Nodup)
    (hrules : ∀ r, .rule r ∈ items → r.IsDistinct) : mergeItems items = items := by
  -- the items ahead are those that were merged so far
  have run : ∀ merged, (termsOf (merged ++ items)).Nodup →
      items.foldl mergeItem merged = merged ++ items := by
    clear hterms
    induction items with
    | nil => exact fun merged _ => (List.append_nil merged).symm
    | cons item items ih =>
      intro merged hnodup
      have last : mergeItem merged item = merged ++ [item] := by
        cases item with
        | rule r =>
          rw [termsOf_append, termsOf_rule, List.nodup_middle, List.nodup_cons,
            List.mem_append, not_or] at hnodup
          have same := (hrules r List.mem_cons_self).distinct_eq
          rw [mergeItem, mergeRule_of_fresh hnodup.1.1, same]
        | profile p => rfl
      rw [List.foldl_cons, last, ih (fun r hr => hrules r (List.mem_cons_of_mem _ hr)),
        List.append_assoc, List.singleton_append]
      rwa [List.append_assoc, List.singleton_append]
  exact run [] hterms

theorem mergeNested_eq_self {items : List (Item Profile)}
    (h : ∀ c, .profile c ∈ items → c.merge = c) : mergeNested items = items := by
  rw [mergeNested_eq_map]
  exact map_change_eq_self (fun _ _ => rfl) h

theorem IsMerged.merge_eq {p : Profile} (h : p.IsMerged) : p.merge = p := by
  induction p using inductionOn with
  | step p ih =>
    obtain ⟨hrules, hinner⟩ := isMerged_iff.1 h
    obtain ⟨name, attachments, modifier, items⟩ := p
    rw [merge, mergeNested_eq_self fun c hc => ih c hc (hinner c hc),
      mergeItems_eq_self hrules.terms fun r hr => hrules.rules r (mem_rules.2 hr)]

theorem merge_eq_self_iff {p : Profile} : p.merge = p ↔ p.IsMerged :=
  ⟨fun h => h ▸ p.isMerged_merge, IsMerged.merge_eq⟩

/-! ## Profiles in order -/

/-- What the profile lists itself is in order. -/
structure HasSortedParts (p : Profile) : Prop where
  attachments : p.attachments.Pairwise (· ≤ ·)
  items : p.items.Pairwise fun a b => (a.compareSiblings b).isLE = true
  rules : ∀ r ∈ p.rules, r.IsSorted

/-- So is what all profiles in it list. -/
def IsSorted (p : Profile) : Prop := ∀ c ∈ p.walk, c.HasSortedParts

theorem isSorted_iff {p : Profile} :
    p.IsSorted ↔ p.HasSortedParts ∧ ∀ c, .profile c ∈ p.items → c.IsSorted :=
  forall_mem_walk

theorem exists_of_rule_mem_sort {p : Profile} {t : Rule} (h : t ∈ p.sort.rules) :
    ∃ r ∈ p.rules, r.sort = t := by
  obtain ⟨r, hr, hrt⟩ := rule_mem_sortParts.1 (p.perm_items_sort.mem_iff.1 (mem_rules.1 h))
  exact ⟨r, mem_rules.2 hr, hrt⟩

theorem hasSortedParts_sort (p : Profile) : p.sort.HasSortedParts where
  attachments := by
    cases p
    rw [sort]
    exact pairwise_sortTexts _
  items := p.pairwise_items_sort
  rules t ht := by
    obtain ⟨r, _, rfl⟩ := exists_of_rule_mem_sort ht
    exact r.isSorted_sort

theorem isSorted_sort (p : Profile) : p.sort.IsSorted := by
  intro c hc
  obtain ⟨b, _, rfl⟩ := (keeps_sort.mem_walk p c).1 hc
  exact b.hasSortedParts_sort

theorem sortParts_eq_self {items : List (Item Profile)} (hrules : ∀ r, .rule r ∈ items → r.IsSorted)
    (h : ∀ c, .profile c ∈ items → c.sort = c) : sortParts items = items := by
  rw [sortParts_eq_map]
  exact map_change_eq_self (fun r hr => (hrules r hr).sort_eq) h

theorem IsSorted.sort_eq {p : Profile} (h : p.IsSorted) : p.sort = p := by
  induction p using inductionOn with
  | step p ih =>
    obtain ⟨hparts, hinner⟩ := isSorted_iff.1 h
    obtain ⟨name, attachments, modifier, items⟩ := p
    have parts : sortParts items = items :=
      sortParts_eq_self (fun r hr => hparts.rules r (mem_rules.2 hr))
        fun c hc => ih c hc (hinner c hc)
    rw [sort, sortTexts_eq_self hparts.attachments, parts,
      List.mergeSort_of_pairwise hparts.items]

theorem sort_eq_self_iff {p : Profile} : p.sort = p ↔ p.IsSorted :=
  ⟨fun h => h ▸ p.isSorted_sort, IsSorted.sort_eq⟩

/-! ## Sorting what is merged -/

theorem HasDistinctRules.sort {p : Profile} (h : p.HasDistinctRules) :
    p.sort.HasDistinctRules := by
  have perm : (termsOf p.sort.items).Perm (termsOf p.items) := by
    rw [← termsOf_sortParts p.items]
    exact p.perm_items_sort.filterMap _
  refine ⟨perm.nodup_iff.2 h.terms, fun t ht => ?_⟩
  obtain ⟨r, hr, rfl⟩ := exists_of_rule_mem_sort ht
  exact (h.rules r hr).sort

/-- Sorting keeps a profile merged. -/
theorem IsMerged.sort {p : Profile} (h : p.IsMerged) : p.sort.IsMerged := by
  intro c hc
  obtain ⟨b, hb, rfl⟩ := (keeps_sort.mem_walk p c).1 hc
  exact (h b hb).sort

end Profile

end AccessPolicy
