import AccessPolicy.Proofs.Collection.Sorted
import AccessPolicy.Proofs.Profile.Merged

/-!
# The canonical form of a profile

In the canonical form of a profile the rules are merged and everything is in order
(`Profile.canonical`). A rule of the canonical form is told by its terms and
by the attachments that the profile has on these terms (`Profile.canonical_rule_eq`),
and begins with the least of these attachments (`Profile.head?_attachments`). Where
nested profiles have names of their own no item comes twice.

Items come in the order of siblings. Two of them can stand either way round when
they agree in tag, name and first attachment (`Item.compareSiblings_eq_iff`).
-/

namespace AccessPolicy

/-! ## The order of siblings -/

instance : Std.OrientedCmp comparePresent where
  eq_swap {a b} := by
    cases a <;> cases b
    · rfl
    · rfl
    · rfl
    · exact Std.OrientedOrd.eq_swap

instance : Std.TransCmp comparePresent where
  isLE_trans {a b c} hab hbc := by
    -- no value comes before one that is missing, and nothing behind it
    cases a <;> cases b <;> cases c
    all_goals first | exact Std.TransOrd.isLE_trans hab hbc | contradiction | rfl

theorem comparePresent_eq_iff {a b : Option String} : comparePresent a b = .eq ↔ a = b := by
  cases a <;> cases b <;> simp [comparePresent]

/-- What is compared by a part of it is compared in an order. -/
theorem transCmp_on {α β : Type} {cmp : β → β → Ordering} [Std.TransCmp cmp] (f : α → β) :
    Std.TransCmp fun a b => cmp (f a) (f b) where
  eq_swap := Std.OrientedCmp.eq_swap
  isLE_trans := Std.TransCmp.isLE_trans

namespace Item

instance : Std.TransCmp compareSiblings := by
  have names : Std.TransCmp fun a b : Item Profile => comparePresent a.name? b.name? :=
    transCmp_on name?
  have attachments : Std.TransCmp fun a b : Item Profile =>
      comparePresent a.firstAttachment? b.firstAttachment? := transCmp_on firstAttachment?
  exact inferInstanceAs (Std.TransCmp (compareLex (compareOn tag) (compareLex
    (fun a b => comparePresent a.name? b.name?)
    fun a b => comparePresent a.firstAttachment? b.firstAttachment?)))

theorem compareSiblings_eq_iff {a b : Item Profile} : a.compareSiblings b = .eq ↔
    a.tag = b.tag ∧ a.name? = b.name? ∧ a.firstAttachment? = b.firstAttachment? := by
  rw [compareSiblings, Ordering.then_eq_eq, Ordering.then_eq_eq, comparePresent_eq_iff,
    comparePresent_eq_iff, compare_eq_iff_eq]

theorem siblingLE_trans (a b c : Item Profile) (hab : (a.compareSiblings b).isLE = true)
    (hbc : (b.compareSiblings c).isLE = true) : (a.compareSiblings c).isLE = true :=
  Std.TransCmp.isLE_trans hab hbc

theorem siblingLE_total (a b : Item Profile) :
    ((a.compareSiblings b).isLE || (b.compareSiblings a).isLE) = true := by
  have swap : b.compareSiblings a = (a.compareSiblings b).swap := Std.OrientedCmp.eq_swap
  rw [swap]
  cases a.compareSiblings b <;> rfl

end Item

/-! ## Rules in order -/

/-- Rules on the same terms with the same attachments are one rule when they are in
order and repeat nothing. -/
theorem Rule.sort_eq_of_sameTerms {r s : Rule} (hr : r.IsDistinct) (hs : s.IsDistinct)
    (hterms : r.SameTerms s) (h : ∀ a, a ∈ r.attachments ↔ a ∈ s.attachments) :
    r.sort = s.sort := by
  have attachments : sortTexts r.attachments = sortTexts s.attachments :=
    sortTexts_eq_of_perm ((List.perm_ext_iff_of_nodup hr.1 hs.1).2 h)
  have permissions : r.sort.permissions = s.sort.permissions :=
    mergeSort_on_eq_of_perm Permission.toText (fun _ _ _ _ => Permission.toText_inj)
      ((List.perm_ext_iff_of_nodup hr.2 hs.2).2 hterms.permissions)
  show (⟨r.kind, r.qualifier, r.modifier, sortTexts r.attachments, r.sort.permissions⟩ : Rule) =
    ⟨s.kind, s.qualifier, s.modifier, sortTexts s.attachments, s.sort.permissions⟩
  rw [hterms.kind, hterms.qualifier, hterms.modifier, attachments, permissions]

namespace Profile

variable {items : List (Item Profile)}

theorem rule_mem_sortParts {t : Rule} :
    .rule t ∈ sortParts items ↔ ∃ r, .rule r ∈ items ∧ r.sort = t := by
  rw [sortParts_eq_map, rule_mem_map_change]

theorem termsOf_sortParts (items : List (Item Profile)) :
    termsOf (sortParts items) = termsOf items := by
  rw [sortParts_eq_map]
  exact filterMap_map_of (fun item => by cases item <;> simp [Item.change]) items

theorem namesOf_sortParts (items : List (Item Profile)) :
    namesOf (sortParts items) = namesOf items := by
  rw [sortParts_eq_map]
  exact filterMap_map_of (fun item => by cases item <;> simp [Item.change, Item.name?]) items

theorem items_sort (p : Profile) : p.sort.items =
    (sortParts p.items).mergeSort fun a b => (a.compareSiblings b).isLE := by
  cases p
  rw [sort]

theorem perm_items_sort (p : Profile) : p.sort.items.Perm (sortParts p.items) := by
  rw [items_sort]
  exact List.mergeSort_perm _ _

theorem pairwise_items_sort (p : Profile) :
    p.sort.items.Pairwise fun a b => (a.compareSiblings b).isLE = true := by
  rw [items_sort]
  exact List.pairwise_mergeSort Item.siblingLE_trans Item.siblingLE_total _

theorem items_merge (p : Profile) : p.merge.items = mergeItems (mergeNested p.items) := by
  cases p
  rw [merge]

/-! ## The items of the canonical form -/

variable {p q : Profile}

/-- The items of the canonical form, before they are put in order. -/
def canonicalParts (items : List (Item Profile)) : List (Item Profile) :=
  sortParts (mergeItems (mergeNested items))

theorem canonical_eq (name : String) (attachments : List String) (modifier : Option String)
    (items : List (Item Profile)) : canonical ⟨name, attachments, modifier, items⟩ =
      ⟨name, sortTexts attachments, modifier,
        (canonicalParts items).mergeSort fun a b => (a.compareSiblings b).isLE⟩ := by
  rw [canonical, merge, sort]
  rfl

theorem items_canonical (p : Profile) : p.canonical.items =
    (canonicalParts p.items).mergeSort fun a b => (a.compareSiblings b).isLE := by
  rw [canonical, items_sort, items_merge, canonicalParts]

theorem perm_items_canonical (p : Profile) : p.canonical.items.Perm (canonicalParts p.items) := by
  rw [canonicalParts, ← items_merge]
  exact p.merge.perm_items_sort

theorem pairwise_items_canonical (p : Profile) :
    p.canonical.items.Pairwise fun a b => (a.compareSiblings b).isLE = true :=
  p.merge.pairwise_items_sort

theorem termsOf_canonicalParts (items : List (Item Profile)) :
    termsOf (canonicalParts items) = distinct (termsOf items) := by
  rw [canonicalParts, termsOf_sortParts, termsOf_mergeItems, termsOf_mergeNested]

theorem namesOf_canonicalParts (items : List (Item Profile)) :
    namesOf (canonicalParts items) = namesOf items := by
  rw [canonicalParts, namesOf_sortParts, namesOf_mergeItems, namesOf_mergeNested]

/-- The canonical form has one rule on each terms. -/
theorem nodup_termsOf_canonical (p : Profile) : (termsOf p.canonical.items).Nodup := by
  have perm : (termsOf p.canonical.items).Perm (termsOf (canonicalParts p.items)) :=
    (perm_items_canonical p).filterMap _
  rw [perm.nodup_iff, termsOf_canonicalParts]
  exact nodup_distinct _

theorem mem_termsOf_canonical
    {terms : ObjectKind × Qualifier × Option String × List Permission} :
    terms ∈ termsOf p.canonical.items ↔ terms ∈ termsOf p.items := by
  have perm : (termsOf p.canonical.items).Perm (termsOf (canonicalParts p.items)) :=
    (perm_items_canonical p).filterMap _
  rw [perm.mem_iff, termsOf_canonicalParts, mem_distinct]

theorem nodup_namesOf_canonical (h : (namesOf p.items).Nodup) :
    (namesOf p.canonical.items).Nodup := by
  have perm : (namesOf p.canonical.items).Perm (namesOf (canonicalParts p.items)) :=
    (perm_items_canonical p).filterMap _
  rw [namesOf_canonicalParts] at perm
  exact perm.nodup_iff.2 h

theorem nodup_items_canonical (h : (namesOf p.items).Nodup) : p.canonical.items.Nodup :=
  nodup_of_termsOf_namesOf (nodup_termsOf_canonical p) (nodup_namesOf_canonical h)

/-- A rule of the canonical form is a rule in order that repeats nothing. -/
theorem exists_of_rule_mem_canonical {t : Rule} (ht : .rule t ∈ p.canonical.items) :
    ∃ r : Rule, r.IsDistinct ∧ r.sort = t := by
  rw [(perm_items_canonical p).mem_iff, canonicalParts, rule_mem_sortParts] at ht
  obtain ⟨r, hr, hrt⟩ := ht
  exact ⟨r, isDistinct_mergeItems _ r hr, hrt⟩

/-- The attachments of a rule of the canonical form are all that the profile has on
its terms. -/
theorem mem_attachments_canonical {t : Rule} (ht : .rule t ∈ p.canonical.items) (a : String) :
    a ∈ t.attachments ↔ Attaches p.items t.SameTerms a := by
  rw [← keeps_canonical.attaches p t.onTerms_sameTerms]
  refine ⟨fun ha => ⟨t, ht, .refl t, ha⟩, fun ⟨u, hu, hterms, ha⟩ => ?_⟩
  rw [eq_of_terms_eq (nodup_termsOf_canonical p) ht hu (Rule.terms_eq_iff.2 hterms)]
  exact ha

/-- Rules of two canonical forms on the same terms are equal if both profiles have
the same attachments on them. -/
theorem canonical_rule_eq {t u : Rule} (ht : .rule t ∈ p.canonical.items)
    (hu : .rule u ∈ q.canonical.items) (hterms : t.SameTerms u)
    (h : ∀ a, Attaches p.items t.SameTerms a ↔ Attaches q.items u.SameTerms a) : t = u := by
  obtain ⟨r, hr, rfl⟩ := exists_of_rule_mem_canonical ht
  obtain ⟨s, hs, rfl⟩ := exists_of_rule_mem_canonical hu
  refine Rule.sort_eq_of_sameTerms hr hs ?_ fun a => ?_
  · exact r.sameTerms_sort.symm.trans (hterms.trans s.sameTerms_sort)
  · have sorted : ∀ w : Rule, a ∈ w.sort.attachments ↔ a ∈ w.attachments :=
      fun _ => mem_sortTexts
    rw [← sorted r, ← sorted s, mem_attachments_canonical ht, mem_attachments_canonical hu, h]

/-! ## What a rule begins with -/

/-- The attachment that comes first among those of the rules that are like a rule. -/
def firstLike? (rules : List Rule) (r : Rule) : Option String :=
  ((rules.filter r.isAlike).flatMap (·.attachments)).min?

theorem mem_attachmentsLike {r : Rule} {a : String} :
    a ∈ (p.rules.filter r.isAlike).flatMap (·.attachments) ↔ Attaches p.items r.SameTerms a := by
  simp only [List.mem_flatMap, List.mem_filter, mem_rules, Rule.isAlike_iff]
  exact ⟨fun ⟨s, ⟨hs, hterms⟩, ha⟩ => ⟨s, hs, hterms, ha⟩,
    fun ⟨s, hs, hterms, ha⟩ => ⟨s, ⟨hs, hterms⟩, ha⟩⟩

/-- What comes first on the same terms is the same, if the attachments are. -/
theorem firstLike?_congr {r s : Rule}
    (h : ∀ a, Attaches p.items r.SameTerms a ↔ Attaches q.items s.SameTerms a) :
    firstLike? p.rules r = firstLike? q.rules s := by
  have sorted := pairwise_sortTexts ((p.rules.filter r.isAlike).flatMap (·.attachments))
  unfold firstLike?
  rw [← head?_eq_min? sorted fun _ => mem_sortTexts, head?_eq_min? sorted fun a => ?_]
  rw [mem_sortTexts, mem_attachmentsLike, mem_attachmentsLike, h]

theorem firstLike?_of_sameTerms {r s : Rule} (h : r.SameTerms s) :
    firstLike? p.rules r = firstLike? p.rules s := by
  refine firstLike?_congr fun a => ?_
  exact exists_congr fun t => and_congr_right fun _ => and_congr_left fun _ =>
    ⟨h.symm.trans, h.trans⟩

/-- A rule of the canonical form begins with the first attachment on its terms. -/
theorem head?_attachments {t : Rule} (ht : .rule t ∈ p.canonical.items) :
    t.attachments.head? = firstLike? p.rules t := by
  obtain ⟨r, _, rfl⟩ := exists_of_rule_mem_canonical ht
  refine head?_eq_min? (pairwise_sortTexts r.attachments) fun a => ?_
  rw [mem_attachmentsLike]
  exact mem_attachments_canonical ht a

end Profile

end AccessPolicy
