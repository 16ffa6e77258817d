import AccessPolicy.Proofs.Profile.Keeps
import Mathlib.Data.List.Pairwise

/-!
# What merging leaves

Merging keeps the terms of the rules of a profile, each once and in the order in
which they come first (`Profile.termsOf_mergeItems`). So one rule is left on each
terms, and a rule that comes first stays first. It repeats no attachment and no
permission, and the profiles inside keep their names and their order.
-/

namespace AccessPolicy

namespace Rule

/-- What rules that are merged have in common. -/
def terms (r : Rule) : ObjectKind × Qualifier × Option String × List Permission :=
  (r.kind, r.qualifier, r.modifier, r.permissionSet)

theorem terms_eq_iff {r s : Rule} : r.terms = s.terms ↔ r.SameTerms s := by
  simp only [terms, Prod.mk.injEq, permissionSet_eq_iff]
  exact ⟨fun ⟨hkind, hqualifier, hmodifier, h⟩ => ⟨hkind, hqualifier, hmodifier, h⟩,
    fun h => ⟨h.kind, h.qualifier, h.modifier, h.permissions⟩⟩

theorem isAlike_iff_terms {r s : Rule} : r.isAlike s = true ↔ r.terms = s.terms := by
  rw [isAlike_iff, terms_eq_iff]

@[simp] theorem terms_distinct (r : Rule) : r.distinct.terms = r.terms :=
  terms_eq_iff.2 r.sameTerms_distinct

@[simp] theorem terms_absorb (r s : Rule) : (r.absorb s).terms = r.terms :=
  terms_eq_iff.2 (r.sameTerms_absorb s)

@[simp] theorem terms_sort (r : Rule) : r.sort.terms = r.terms :=
  terms_eq_iff.2 r.sameTerms_sort

/-- The rule repeats no attachment and no permission. -/
def IsDistinct (r : Rule) : Prop := r.attachments.Nodup ∧ r.permissions.Nodup

theorem isDistinct_distinct (r : Rule) : r.distinct.IsDistinct :=
  ⟨nodup_distinct _, nodup_distinct _⟩

theorem IsDistinct.absorb {r : Rule} (h : r.IsDistinct) (s : Rule) : (r.absorb s).IsDistinct :=
  ⟨nodup_distinct _, h.2⟩

end Rule

/-- First occurrences, when one more comes last. -/
theorem distinct_concat {α : Type} [DecidableEq α] (as : List α) (a : α) :
    distinct (as ++ [a]) = if a ∈ as then distinct as else distinct as ++ [a] := by
  have cons : ∀ (b : α) (bs : List α),
      distinct (b :: bs) = b :: (distinct bs).filter fun c => c ≠ b := fun _ _ => rfl
  induction as with
  | nil => rfl
  | cons b as ih =>
    rw [List.cons_append, cons, cons, ih]
    by_cases hb : a = b
    · subst hb
      by_cases ha : a ∈ as
      · simp [ha]
      · simp [ha]
    · by_cases ha : a ∈ as
      · simp [ha]
      · simp [ha, hb]

/-- Where nothing is told twice, members of which the same is told are one. -/
theorem eq_of_nodup_filterMap {α β : Type} {f : α → Option β} {l : List α}
    (h : (l.filterMap f).Nodup) {a b : α} (ha : a ∈ l) (hb : b ∈ l) {c : β}
    (hfa : f a = some c) (hfb : f b = some c) : a = b := by
  have apart : l.Pairwise fun x y => f x = some c → f y = some c → x = y :=
    (List.pairwise_filterMap.1 h).imp fun hxy hx hy => absurd rfl (hxy c hx c hy)
  have flipped : Std.Symm fun x y => f x = some c → f y = some c → x = y :=
    ⟨fun _ _ hxy hy hx => (hxy hx hy).symm⟩
  exact apart.forall_of_forall (fun _ _ _ _ => rfl) ha hb hfa hfb

namespace Profile

variable {items : List (Item Profile)}

/-! ## Terms and names -/

/-- The terms of the rules among some items, in order. -/
def termsOf (items : List (Item Profile)) :
    List (ObjectKind × Qualifier × Option String × List Permission) :=
  items.filterMap fun
    | .rule r => some r.terms
    | .profile _ => none

/-- The names of the profiles among some items, in order. -/
def namesOf (items : List (Item Profile)) : List String := items.filterMap Item.name?

@[simp] theorem termsOf_rule (r : Rule) (items : List (Item Profile)) :
    termsOf (.rule r :: items) = r.terms :: termsOf items := rfl

@[simp] theorem termsOf_profile (p : Profile) (items : List (Item Profile)) :
    termsOf (.profile p :: items) = termsOf items := rfl

@[simp] theorem namesOf_rule (r : Rule) (items : List (Item Profile)) :
    namesOf (.rule r :: items) = namesOf items := rfl

@[simp] theorem namesOf_profile (p : Profile) (items : List (Item Profile)) :
    namesOf (.profile p :: items) = p.name :: namesOf items := rfl

theorem termsOf_append (xs ys : List (Item Profile)) :
    termsOf (xs ++ ys) = termsOf xs ++ termsOf ys := List.filterMap_append

theorem namesOf_append (xs ys : List (Item Profile)) :
    namesOf (xs ++ ys) = namesOf xs ++ namesOf ys := List.filterMap_append

theorem mem_termsOf {terms : ObjectKind × Qualifier × Option String × List Permission} :
    terms ∈ termsOf items ↔ ∃ r, .rule r ∈ items ∧ r.terms = terms := by
  induction items with
  | nil => simp [termsOf]
  | cons item items ih => cases item <;> simp [ih, or_and_right, exists_or, eq_comm]

theorem mem_namesOf {name : String} :
    name ∈ namesOf items ↔ ∃ p, .profile p ∈ items ∧ p.name = name := by
  induction items with
  | nil => simp [namesOf]
  | cons item items ih => cases item <;> simp [ih, or_and_right, exists_or, eq_comm]

theorem namesOf_items (p : Profile) : namesOf p.items = p.nested.map (·.name) := by
  rw [namesOf, nested, List.map_filterMap]
  congr 1
  funext item
  cases item <;> rfl

/-- What is told of each item is told of it when the items are changed in other ways. -/
theorem filterMap_map_of {β : Type} {change : Item Profile → Item Profile}
    {told : Item Profile → Option β} (h : ∀ item, told (change item) = told item)
    (items : List (Item Profile)) : (items.map change).filterMap told = items.filterMap told := by
  rw [List.filterMap_map]
  exact List.filterMap_congr fun item _ => h item

/-- Where no terms come twice, a rule is told by its terms. -/
theorem eq_of_terms_eq (h : (termsOf items).Nodup) {r s : Rule} (hr : .rule r ∈ items)
    (hs : .rule s ∈ items) (hterms : r.terms = s.terms) : r = s :=
  Item.rule.inj (eq_of_nodup_filterMap h hr hs rfl (congrArg some hterms.symm))

/-- Where no name comes twice, a profile is told by its name. -/
theorem eq_of_name_eq (h : (namesOf items).Nodup) {p q : Profile} (hp : .profile p ∈ items)
    (hq : .profile q ∈ items) (hname : p.name = q.name) : p = q :=
  Item.profile.inj (eq_of_nodup_filterMap h hp hq rfl (congrArg some hname.symm))

/-- Items with terms and names of their own are not repeated. -/
theorem nodup_of_termsOf_namesOf (hterms : (termsOf items).Nodup) (hnames : (namesOf items).Nodup) :
    items.Nodup := by
  induction items with
  | nil => exact List.nodup_nil
  | cons item items ih =>
    rw [List.nodup_cons]
    cases item with
    | rule r =>
      rw [termsOf_rule, List.nodup_cons] at hterms
      exact ⟨fun hr => hterms.1 (mem_termsOf.2 ⟨r, hr, rfl⟩), ih hterms.2 hnames⟩
    | profile p =>
      rw [namesOf_profile, List.nodup_cons] at hnames
      exact ⟨fun hp => hnames.1 (mem_namesOf.2 ⟨p, hp, rfl⟩), ih hterms hnames.2⟩

/-! ## One rule -/

theorem termsOf_mergeRule (r : Rule) (items : List (Item Profile)) :
    termsOf (mergeRule r items) =
      if r.terms ∈ termsOf items then termsOf items else termsOf items ++ [r.terms] := by
  induction items with
  | nil => simp [mergeRule, termsOf]
  | cons item items ih =>
    cases item with
    | rule s =>
      rw [mergeRule]
      by_cases halike : s.isAlike r = true
      · have same := Rule.isAlike_iff_terms.1 halike
        rw [if_pos halike, termsOf_rule, termsOf_rule, s.terms_absorb, ← same]
        simp
      · have other : r.terms ≠ s.terms := fun h => halike (Rule.isAlike_iff_terms.2 h.symm)
        rw [if_neg halike, termsOf_rule, termsOf_rule, ih]
        by_cases hmem : r.terms ∈ termsOf items
        · simp [hmem]
        · simp [hmem, other]
    | profile p => rw [mergeRule, termsOf_profile, termsOf_profile, ih]

/-- A rule on terms of its own comes behind the others. -/
theorem mergeRule_of_fresh {r : Rule}
    (h : r.terms ∉ termsOf items) : mergeRule r items = items ++ [.rule r.distinct] := by
  induction items with
  | nil => rfl
  | cons item items ih =>
    cases item with
    | rule s =>
      rw [termsOf_rule, List.mem_cons, not_or] at h
      have apart : ¬ s.isAlike r = true := fun halike => h.1 (Rule.isAlike_iff_terms.1 halike).symm
      rw [mergeRule, if_neg apart, ih h.2, List.cons_append]
    | profile p => rw [mergeRule, ih h, List.cons_append]

/-- What becomes of an item when a rule is merged into those on its terms. -/
def takeOver (r : Rule) : Item Profile → Item Profile
  | .rule s => if s.isAlike r then .rule (s.absorb r) else .rule s
  | .profile p => .profile p

theorem map_takeOver_of_fresh {r : Rule} (h : r.terms ∉ termsOf items) :
    items.map (takeOver r) = items := by
  induction items with
  | nil => rfl
  | cons item items ih =>
    cases item with
    | rule s =>
      rw [termsOf_rule, List.mem_cons, not_or] at h
      have apart : ¬ s.isAlike r = true := fun halike => h.1 (Rule.isAlike_iff_terms.1 halike).symm
      rw [List.map_cons, takeOver, if_neg apart, ih h.2]
    | profile p => rw [List.map_cons, takeOver, ih h]

/-- Where no terms come twice, a rule on known terms is taken over by the rule on them. -/
theorem mergeRule_of_known {r : Rule} (hnodup : (termsOf items).Nodup)
    (h : r.terms ∈ termsOf items) : mergeRule r items = items.map (takeOver r) := by
  induction items with
  | nil => exact absurd h List.not_mem_nil
  | cons item items ih =>
    cases item with
    | rule s =>
      rw [termsOf_rule, List.nodup_cons] at hnodup
      rw [mergeRule, List.map_cons, takeOver]
      by_cases halike : s.isAlike r = true
      · have others : r.terms ∉ termsOf items := Rule.isAlike_iff_terms.1 halike ▸ hnodup.1
        rw [if_pos halike, if_pos halike, map_takeOver_of_fresh others]
      · have other : r.terms ≠ s.terms := fun same => halike (Rule.isAlike_iff_terms.2 same.symm)
        rw [if_neg halike, if_neg halike, ih hnodup.2 (List.mem_of_ne_of_mem other h)]
    | profile p => rw [mergeRule, List.map_cons, takeOver, ih hnodup h]

theorem namesOf_mergeRule (r : Rule) (items : List (Item Profile)) :
    namesOf (mergeRule r items) = namesOf items := by
  induction items with
  | nil => rfl
  | cons item items ih =>
    cases item with
    | rule s =>
      rw [mergeRule]
      by_cases halike : s.isAlike r = true
      · rw [if_pos halike, namesOf_rule, namesOf_rule]
      · rw [if_neg halike, namesOf_rule, namesOf_rule, ih]
    | profile p => rw [mergeRule, namesOf_profile, namesOf_profile, ih]

/-- Where a rule is merged in, a rule is one that was there, has absorbed it, or is
the rule itself. -/
theorem rule_mem_mergeRule {r t : Rule} (h : .rule t ∈ mergeRule r items) :
    .rule t ∈ items ∨ (∃ s, .rule s ∈ items ∧ t = s.absorb r) ∨ t = r.distinct := by
  induction items with
  | nil =>
    rw [mergeRule, List.mem_singleton, Item.rule.injEq] at h
    exact .inr (.inr h)
  | cons item items ih =>
    cases item with
    | rule s =>
      rw [mergeRule] at h
      by_cases halike : s.isAlike r = true
      · rw [if_pos halike, List.mem_cons, Item.rule.injEq] at h
        rcases h with rfl | h
        · exact .inr (.inl ⟨s, List.mem_cons_self, rfl⟩)
        · exact .inl (List.mem_cons_of_mem _ h)
      · rw [if_neg halike, List.mem_cons, Item.rule.injEq] at h
        rcases h with rfl | h
        · exact .inl List.mem_cons_self
        · rcases ih h with h | ⟨u, hu, ht⟩ | ht
          · exact .inl (List.mem_cons_of_mem _ h)
          · exact .inr (.inl ⟨u, List.mem_cons_of_mem _ hu, ht⟩)
          · exact .inr (.inr ht)
    | profile p =>
      rw [mergeRule, List.mem_cons, or_iff_right (by simp)] at h
      rcases ih h with h | ⟨u, hu, ht⟩ | ht
      · exact .inl (List.mem_cons_of_mem _ h)
      · exact .inr (.inl ⟨u, List.mem_cons_of_mem _ hu, ht⟩)
      · exact .inr (.inr ht)

/-! ## One item -/

/-- The terms are those that were seen, each once, and the next item is seen. -/
theorem termsOf_mergeItem {merged : List (Item Profile)}
    {seen : List (ObjectKind × Qualifier × Option String × List Permission)}
    (h : termsOf merged = distinct seen) (item : Item Profile) :
    termsOf (mergeItem merged item) = distinct (seen ++ termsOf [item]) := by
  cases item with
  | rule r =>
    have single : termsOf [.rule r] = [r.terms] := rfl
    rw [mergeItem, termsOf_mergeRule, h, single, distinct_concat]
    by_cases hseen : r.terms ∈ seen
    · rw [if_pos (mem_distinct.2 hseen), if_pos hseen]
    · rw [if_neg fun hmem => hseen (mem_distinct.1 hmem), if_neg hseen]
  | profile p =>
    have none : termsOf [.profile p] = [] := rfl
    rw [mergeItem, termsOf_append, h, none, List.append_nil, List.append_nil]

theorem namesOf_mergeItem (merged : List (Item Profile)) (item : Item Profile) :
    namesOf (mergeItem merged item) = namesOf merged ++ namesOf [item] := by
  cases item with
  | rule r =>
    have none : namesOf [.rule r] = [] := rfl
    rw [mergeItem, namesOf_mergeRule, none, List.append_nil]
  | profile p => rw [mergeItem, namesOf_append]

theorem isDistinct_mergeItem {merged : List (Item Profile)}
    (h : ∀ t, .rule t ∈ merged → t.IsDistinct) (item : Item Profile) :
    ∀ t, .rule t ∈ mergeItem merged item → t.IsDistinct := by
  intro t ht
  cases item with
  | rule r =>
    rcases rule_mem_mergeRule ht with ht | ⟨s, hs, rfl⟩ | rfl
    · exact h t ht
    · exact (h s hs).absorb r
    · exact r.isDistinct_distinct
  | profile p =>
    rw [mergeItem, List.mem_append, List.mem_singleton, or_iff_left (by simp)] at ht
    exact h t ht

/-- What stands in front is a rule on the same terms. -/
theorem mergeItem_front (t : Rule) (merged : List (Item Profile)) (item : Item Profile) :
    ∃ u merged', mergeItem (.rule t :: merged) item = .rule u :: merged' ∧ u.terms = t.terms := by
  cases item with
  | rule r =>
    rw [mergeItem, mergeRule]
    by_cases halike : t.isAlike r = true
    · rw [if_pos halike]
      exact ⟨_, _, rfl, t.terms_absorb r⟩
    · rw [if_neg halike]
      exact ⟨_, _, rfl, rfl⟩
  | profile p => exact ⟨_, _, rfl, rfl⟩

/-! ## All items -/

theorem termsOf_foldl_mergeItem {merged : List (Item Profile)}
    {seen : List (ObjectKind × Qualifier × Option String × List Permission)}
    (h : termsOf merged = distinct seen) (items : List (Item Profile)) :
    termsOf (items.foldl mergeItem merged) = distinct (seen ++ termsOf items) := by
  induction items generalizing merged seen with
  | nil => simpa [termsOf] using h
  | cons item items ih =>
    rw [List.foldl_cons, ih (termsOf_mergeItem h item), List.append_assoc, ← termsOf_append,
      List.singleton_append]

theorem termsOf_mergeItems (items : List (Item Profile)) :
    termsOf (mergeItems items) = distinct (termsOf items) :=
  @termsOf_foldl_mergeItem [] [] rfl items

theorem namesOf_mergeItems (items : List (Item Profile)) :
    namesOf (mergeItems items) = namesOf items := by
  have run : ∀ merged, namesOf (items.foldl mergeItem merged) =
      namesOf merged ++ namesOf items := by
    induction items with
    | nil => exact fun merged => (List.append_nil _).symm
    | cons item items ih =>
      intro merged
      rw [List.foldl_cons, ih, namesOf_mergeItem, List.append_assoc, ← namesOf_append,
        List.singleton_append]
  exact run []

/-- No rule that is left repeats anything. -/
theorem isDistinct_mergeItems (items : List (Item Profile)) :
    ∀ t, .rule t ∈ mergeItems items → t.IsDistinct := by
  have run : ∀ merged, (∀ t, .rule t ∈ merged → t.IsDistinct) →
      ∀ t, .rule t ∈ items.foldl mergeItem merged → t.IsDistinct := by
    induction items with
    | nil => exact fun _ h => h
    | cons item items ih => exact fun merged h => ih _ (isDistinct_mergeItem h item)
  exact run [] fun t ht => absurd ht List.not_mem_nil

/-- A rule in front of the others stays in front. -/
theorem mergeItems_rule (r : Rule) (items : List (Item Profile)) :
    ∃ t merged, mergeItems (.rule r :: items) = .rule t :: merged ∧ t.terms = r.terms := by
  have run : ∀ t merged, ∃ u merged',
      items.foldl mergeItem (.rule t :: merged) = .rule u :: merged' ∧ u.terms = t.terms := by
    induction items with
    | nil => exact fun t merged => ⟨t, merged, rfl, rfl⟩
    | cons item items ih =>
      intro t merged
      obtain ⟨u, merged', hmerged, hu⟩ := mergeItem_front t merged item
      obtain ⟨w, left, hleft, hw⟩ := ih u merged'
      exact ⟨w, left, by rw [List.foldl_cons, hmerged, hleft], hw.trans hu⟩
  obtain ⟨t, merged, hmerged, ht⟩ := run r.distinct []
  exact ⟨t, merged, hmerged, ht.trans r.terms_distinct⟩

theorem termsOf_mergeNested (items : List (Item Profile)) :
    termsOf (mergeNested items) = termsOf items := by
  rw [mergeNested_eq_map]
  exact filterMap_map_of (fun item => by cases item <;> rfl) items

theorem namesOf_mergeNested (items : List (Item Profile)) :
    namesOf (mergeNested items) = namesOf items := by
  rw [mergeNested_eq_map]
  exact filterMap_map_of (fun item => by cases item <;> simp [Item.change, Item.name?]) items

end Profile

end AccessPolicy
