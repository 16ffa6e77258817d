import AccessPolicy.Proofs.Document.Read
import AccessPolicy.Proofs.Profile.Keeps

/-!
# Merging and sorting keep documents readable

A rule that takes over attachments, loses repeated ones or is put in order stays
well-formed, and so do all rules among the items of a profile (`Profile.ReadableRules`). A
change that keeps the attachments of profiles, their names and readable rules keeps a profile
well-formed on every level (`Profile.Keeps.isWellFormed`).
-/

namespace AccessPolicy

/-! ## Rules -/

namespace Rule

variable {r s : Rule}

theorem IsWellFormed.distinct (h : r.IsWellFormed) : r.distinct.IsWellFormed := by
  obtain ⟨a, ha⟩ := List.exists_mem_of_ne_nil _ h.attached
  exact ⟨List.ne_nil_of_mem (mem_distinct.2 ha), fun b hb => h.attachments b (mem_distinct.1 hb)⟩

theorem IsWellFormed.absorb (hr : r.IsWellFormed) (hs : s.IsWellFormed) :
    (r.absorb s).IsWellFormed := by
  obtain ⟨a, ha⟩ := List.exists_mem_of_ne_nil _ hr.attached
  refine ⟨List.ne_nil_of_mem (mem_distinct.2 (List.mem_append_left _ ha)), fun b hb => ?_⟩
  rcases List.mem_append.1 (mem_distinct.1 hb) with hb | hb
  · exact hr.attachments b hb
  · exact hs.attachments b hb

theorem IsWellFormed.sort (h : r.IsWellFormed) : r.sort.IsWellFormed := by
  obtain ⟨a, ha⟩ := List.exists_mem_of_ne_nil _ h.attached
  exact ⟨List.ne_nil_of_mem (mem_sortTexts.2 ha), fun b hb => h.attachments b (mem_sortTexts.1 hb)⟩

end Rule

namespace Profile

/-! ## Rules among items -/

/-- All rules among the items can be read. -/
def ReadableRules (items : List (Item Profile)) : Prop :=
  ∀ r, .rule r ∈ items → r.IsWellFormed

variable {items : List (Item Profile)}

theorem readableRules_nil : ReadableRules [] :=
  fun _ hr => absurd hr List.not_mem_nil

theorem readableRules_rule {r : Rule} :
    ReadableRules (.rule r :: items) ↔ r.IsWellFormed ∧ ReadableRules items := by
  simp only [ReadableRules, List.mem_cons, Item.rule.injEq, forall_eq_or_imp]

theorem readableRules_profile {p : Profile} :
    ReadableRules (.profile p :: items) ↔ ReadableRules items := by
  simp [ReadableRules]

theorem readableRules_mergeRule {r : Rule} (hr : r.IsWellFormed) (h : ReadableRules items) :
    ReadableRules (mergeRule r items) := by
  induction items with
  | nil => exact readableRules_rule.2 ⟨hr.distinct, readableRules_nil⟩
  | cons item items ih =>
    cases item with
    | rule s =>
      obtain ⟨hs, h⟩ := readableRules_rule.1 h
      rw [mergeRule]
      split
      · exact readableRules_rule.2 ⟨hs.absorb hr, h⟩
      · exact readableRules_rule.2 ⟨hs, ih h⟩
    | profile p => exact readableRules_profile.2 (ih (readableRules_profile.1 h))

theorem readableRules_mergeItems (h : ReadableRules items) :
    ReadableRules (mergeItems items) := by
  have run : ∀ merged, ReadableRules merged → ReadableRules (items.foldl mergeItem merged) := by
    induction items with
    | nil => exact fun _ hmerged => hmerged
    | cons item items ih =>
      intro merged hmerged
      cases item with
      | rule r =>
        obtain ⟨hr, h⟩ := readableRules_rule.1 h
        exact ih h _ (readableRules_mergeRule hr hmerged)
      | profile p =>
        refine ih (readableRules_profile.1 h) _ fun r hr => ?_
        rcases List.mem_append.1 hr with hr | hr
        · exact hmerged r hr
        · nomatch List.mem_singleton.1 hr
  exact run [] readableRules_nil

theorem readableRules_map_change {onRule : Rule → Rule} {onProfile : Profile → Profile}
    (hrule : ∀ r, r.IsWellFormed → (onRule r).IsWellFormed) (h : ReadableRules items) :
    ReadableRules (items.map (Item.change onRule onProfile)) := by
  intro t ht
  obtain ⟨r, hr, rfl⟩ := rule_mem_map_change.1 ht
  exact hrule r (h r hr)

theorem readableRules_mergeNested (h : ReadableRules items) :
    ReadableRules (mergeNested items) := by
  rw [mergeNested_eq_map]
  exact readableRules_map_change (fun _ hr => hr) h

theorem readableRules_sortParts (h : ReadableRules items) : ReadableRules (sortParts items) := by
  rw [sortParts_eq_map]
  exact readableRules_map_change (fun _ hr => hr.sort) h

/-! ## Profiles -/

/-- A change that keeps what a profile says, its name and readable rules keeps it
well-formed. -/
theorem Keeps.isWellFormed {change : Profile → Profile} (keeps : Keeps change)
    (name : ∀ p, (change p).name = p.name)
    (rules : ∀ p, ReadableRules p.items → ReadableRules (change p).items) (p : Profile)
    (h : p.IsWellFormed) : (change p).IsWellFormed := by
  induction p using inductionOn with
  | step p ih =>
    obtain ⟨parts, nested⟩ := isWellFormed_iff.1 h
    have readable := rules p fun r hr => parts.rules r (mem_rules.2 hr)
    refine isWellFormed_iff.2 ⟨⟨name p ▸ parts.named, fun a ha => ?_, fun r hr => ?_⟩,
      fun q hq => ?_⟩
    · exact parts.attachments a ((keeps.mem_attachments p a).1 ha)
    · exact readable r (mem_rules.1 hr)
    · obtain ⟨c, hc, rfl⟩ := (keeps.nested p q).1 hq
      exact ih c hc (nested c hc)

variable {p : Profile}

theorem IsWellFormed.merge (h : p.IsWellFormed) : p.merge.IsWellFormed := by
  refine keeps_merge.isWellFormed name_merge (fun q hq => ?_) p h
  cases q
  rw [Profile.merge]
  exact readableRules_mergeItems (readableRules_mergeNested hq)

theorem IsWellFormed.sort (h : p.IsWellFormed) : p.sort.IsWellFormed := by
  refine keeps_sort.isWellFormed name_sort (fun q hq r hr => ?_) p h
  cases q
  rw [Profile.sort] at hr
  exact readableRules_sortParts hq r (List.mem_mergeSort.1 hr)

end Profile

/-! ## Documents -/

namespace Document

variable {d : Document}

/-- A document that can be read back can still be read back when its rules are merged. -/
theorem IsWellFormed.merge (h : d.IsWellFormed) : d.merge.IsWellFormed :=
  isWellFormed_iff.2 (List.forall_mem_map.2 fun p hp => (isWellFormed_iff.1 h p hp).merge)

/-- A document that can be read back can still be read back when it is sorted. -/
theorem IsWellFormed.sort (h : d.IsWellFormed) : d.sort.IsWellFormed := by
  refine isWellFormed_iff.2 fun p hp => ?_
  obtain ⟨q, hq, rfl⟩ := List.mem_map.1 (List.mem_mergeSort.1 hp)
  exact (isWellFormed_iff.1 h q hq).sort

end Document

end AccessPolicy
