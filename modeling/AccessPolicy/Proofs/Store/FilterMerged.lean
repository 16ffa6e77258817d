import AccessPolicy.Profile.Merge
import AccessPolicy.Proofs.Store.Filter

/-!
# Filtering what is merged

Merging changes the rules between the profiles in a profile, and filtering drops profiles
between the rules. Neither looks at what the other changes: patterns are compiled for the
attachments of profiles only, and rules are merged by their terms only. So it does not matter
which of the two is done first, for a list of items (`Profile.fresh_filterItems_mergeItems`), a
profile, a document and a store (`Store.filter_merge`), and the first pattern that does not
compile is the same.
-/

namespace AccessPolicy

namespace Profile

variable {subject : String}

/-! ## One rule -/

/-- A rule is merged into the rules around a profile, whether the profile is kept or not. -/
theorem mergeRule_profile? (r : Rule) (kept : Option Profile) (items : List (Item Profile)) :
    mergeRule r ((kept.map Item.profile).toList ++ items) =
      (kept.map Item.profile).toList ++ mergeRule r items := by
  cases kept with
  | none => rfl
  | some p => rw [Option.map_some, Option.toList_some, List.singleton_append, mergeRule]; rfl

/-- Filtering looks at no rule, so it does not matter when one is merged in. -/
theorem fresh_filterItems_mergeRule (r : Rule) (items : List (Item Profile)) :
    (filterItems subject (mergeRule r items)).fresh =
      (filterItems subject items).fresh.map (mergeRule r) := by
  induction items with
  | nil => rfl
  | cons item items ih =>
    cases item with
    | rule s =>
      rw [mergeRule, fresh_filterItems_rule]
      by_cases halike : s.isAlike r = true
      · rw [if_pos halike, fresh_filterItems_rule]
        cases (filterItems subject items).fresh with
        | error e => rfl
        | ok kept =>
          simp only [Except.map]
          rw [mergeRule, if_pos halike]
      · rw [if_neg halike, fresh_filterItems_rule, ih]
        cases (filterItems subject items).fresh with
        | error e => rfl
        | ok kept =>
          simp only [Except.map]
          rw [mergeRule, if_neg halike]
    | profile p =>
      rw [mergeRule, fresh_filterItems_profile, fresh_filterItems_profile, ih]
      cases (filter subject p).fresh with
      | error e => rfl
      | ok first =>
        cases (filterItems subject items).fresh with
        | error e => rfl
        | ok kept =>
          simp only [Except.bind, Except.map]
          rw [mergeRule_profile?]

/-! ## All items -/

/-- Items in a row are filtered one part after the other. -/
theorem fresh_filterItems_append (xs ys : List (Item Profile)) :
    (filterItems subject (xs ++ ys)).fresh = (filterItems subject xs).fresh.bind fun front =>
      (filterItems subject ys).fresh.map fun back => front ++ back := by
  induction xs with
  | nil =>
    rw [List.nil_append, filterItems, Cached.fresh_pure, Except.bind]
    cases (filterItems subject ys).fresh <;> rfl
  | cons item xs ih =>
    cases item with
    | rule r =>
      rw [List.cons_append, fresh_filterItems_rule, fresh_filterItems_rule, ih]
      cases (filterItems subject xs).fresh with
      | error e => rfl
      | ok front => cases (filterItems subject ys).fresh <;> rfl
    | profile p =>
      rw [List.cons_append, fresh_filterItems_profile, fresh_filterItems_profile, ih]
      cases (filter subject p).fresh with
      | error e => rfl
      | ok first =>
        cases (filterItems subject xs).fresh with
        | error e => rfl
        | ok front => cases (filterItems subject ys).fresh <;> simp [Except.bind, Except.map]

/-- Taking one more item in and filtering is filtering both and taking in what is left. -/
theorem fresh_filterItems_mergeItem (merged : List (Item Profile)) (item : Item Profile) :
    (filterItems subject (mergeItem merged item)).fresh =
      (filterItems subject merged).fresh.bind fun front =>
        (filterItems subject [item]).fresh.map fun back => back.foldl mergeItem front := by
  cases item with
  | rule r =>
    have single : (filterItems subject [.rule r]).fresh = .ok [.rule r] := rfl
    rw [mergeItem, fresh_filterItems_mergeRule, single]
    cases (filterItems subject merged).fresh <;> rfl
  | profile p =>
    rw [mergeItem, fresh_filterItems_append, fresh_filterItems_profile]
    cases (filterItems subject merged).fresh with
    | error e => rfl
    | ok front =>
      cases (filter subject p).fresh with
      | error e => rfl
      | ok first => cases first <;> simp [Except.bind, Except.map, filterItems, mergeItem]

/-- Merging the rules among some items and filtering can be done in either order. -/
theorem fresh_filterItems_mergeItems (items : List (Item Profile)) :
    (filterItems subject (mergeItems items)).fresh =
      (filterItems subject items).fresh.map mergeItems := by
  -- the items that were merged so far are filtered ahead of those that follow
  have run : ∀ merged, (filterItems subject (items.foldl mergeItem merged)).fresh =
      (filterItems subject merged).fresh.bind fun front =>
        (filterItems subject items).fresh.map fun back => back.foldl mergeItem front := by
    induction items with
    | nil =>
      intro merged
      cases h : (filterItems subject merged).fresh <;>
        simp [h, filterItems, Except.bind, Except.map]
    | cons item items ih =>
      intro merged
      have parts := @fresh_filterItems_append subject [item] items
      rw [List.singleton_append] at parts
      rw [List.foldl_cons, ih, fresh_filterItems_mergeItem, parts]
      cases (filterItems subject merged).fresh with
      | error e => rfl
      | ok front =>
        cases (filterItems subject [item]).fresh with
        | error e => rfl
        | ok first =>
          cases (filterItems subject items).fresh <;> simp [Except.bind, Except.map]
  rw [mergeItems, run]
  rfl

/-! ## Profiles -/

/-- What is left of a profile that may be missing is merged by itself. -/
theorem mergeNested_profile? (kept : Option Profile) (items : List (Item Profile)) :
    mergeNested ((kept.map Item.profile).toList ++ items) =
      ((kept.map merge).map Item.profile).toList ++ mergeNested items := by
  cases kept with
  | none => rfl
  | some p => rw [Option.map_some, Option.toList_some, List.singleton_append, mergeNested]; rfl

mutual

/-- Merging a profile and filtering it can be done in either order. -/
theorem fresh_filter_merge (subject : String) : ∀ p : Profile,
    (filter subject p.merge).fresh = (filter subject p).fresh.map (Option.map merge)
  | ⟨name, attachments, modifier, items⟩ => by
    rw [merge, fresh_filter, fresh_filter, fresh_filterItems_mergeItems,
      fresh_filterItems_mergeNested subject items]
    cases (Cache.matchesAny attachments subject).fresh with
    | error e => rfl
    | ok found =>
      cases found with
      | false => rfl
      | true =>
        cases (filterItems subject items).fresh with
        | error e => rfl
        | ok kept => simp [Except.bind, Except.map, merge]

theorem fresh_filterItems_mergeNested (subject : String) : ∀ items : List (Item Profile),
    (filterItems subject (mergeNested items)).fresh =
      (filterItems subject items).fresh.map mergeNested
  | [] => rfl
  | .rule r :: items => by
    rw [mergeNested, fresh_filterItems_rule, fresh_filterItems_rule,
      fresh_filterItems_mergeNested subject items]
    cases (filterItems subject items).fresh <;> rfl
  | .profile p :: items => by
    rw [mergeNested, fresh_filterItems_profile, fresh_filterItems_profile,
      fresh_filter_merge subject p, fresh_filterItems_mergeNested subject items]
    exact bind_map_map fun first kept => (mergeNested_profile? first kept).symm

end

theorem fresh_filterAll_map_merge (ps : List Profile) :
    (filterAll subject (ps.map merge)).fresh = (filterAll subject ps).fresh.map (List.map merge) := by
  induction ps with
  | nil => rfl
  | cons p ps ih =>
    rw [List.map_cons, fresh_filterAll_cons, fresh_filterAll_cons, fresh_filter_merge, ih]
    refine bind_map_map fun first kept => ?_
    cases first <;> rfl

end Profile

/-! ## Documents and stores -/

namespace Document

theorem fresh_filter_merge (subject : String) (d : Document) :
    (d.merge.filter subject).fresh = (d.filter subject).fresh.map merge := by
  rw [fresh_filter, fresh_filter, merge, Profile.fresh_filterAll_map_merge]
  cases (Profile.filterAll subject d.profiles).fresh <;> rfl

/-- Merging leaves a document without profiles when it is one already. -/
theorem isEmpty_merge (d : Document) : d.merge.isEmpty = d.isEmpty := by
  rw [merge, isEmpty, isEmpty, List.isEmpty_map]

end Document

namespace Store

theorem fresh_filterDocuments_map_merge (subject : String) (ds : List Document) :
    (filterDocuments subject (ds.map Document.merge)).fresh =
      (filterDocuments subject ds).fresh.map (List.map Document.merge) := by
  induction ds with
  | nil => rfl
  | cons d ds ih =>
    rw [List.map_cons, fresh_filterDocuments_cons, fresh_filterDocuments_cons,
      Document.fresh_filter_merge, ih]
    refine bind_map_map fun first kept => ?_
    -- the document is dropped from both stores or from none
    rw [first.isEmpty_merge]
    split <;> rfl

/-- A store that is merged and then filtered is the store that is filtered and then merged,
whatever the caches hold: the same documents are dropped, or both fail on the same pattern. -/
theorem filter_merge (s : Store) (subject : String) (cache cache' : Cache) :
    ((s.merge.filter subject).run cache).1 = ((s.filter subject).run cache').1.map merge := by
  rw [transparent_filter subject s.merge, transparent_filter subject s, fresh_filter, fresh_filter,
    merge, fresh_filterDocuments_map_merge]
  cases (filterDocuments subject s.documents).fresh <;> rfl

end Store

end AccessPolicy
