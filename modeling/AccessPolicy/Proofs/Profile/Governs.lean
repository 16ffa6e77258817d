import AccessPolicy.Proofs.Pattern.Cached
import AccessPolicy.Profile.Filter

/-!
# The rules that govern a subject

A rule governs a subject when the profile that holds it and all profiles around
that one are for the subject (`Profile.Governs`). Filtering a profile for a
subject leaves these rules and no others: whenever it answers, the rules of a
kind in what is left are the rules of that kind that govern the subject
(`Profile.mem_rulesOf_filter`). It answers when all attachments of the profile
and of the profiles in it compile.
-/

namespace AccessPolicy

open Cached
open Pattern (AnyMatches Compiles)

namespace Profile

/-- One of the attachments of the profile matches the subject. -/
def IsFor (p : Profile) (subject : String) : Prop := AnyMatches p.attachments subject

/-- The rule stands in the profile or in a profile in it, and all profiles from
the outer one down to the one that holds the rule are for the subject. -/
inductive Governs (subject : String) : Profile → Rule → Prop where
  | own {p : Profile} {r : Rule} : p.IsFor subject → .rule r ∈ p.items → Governs subject p r
  | within {p q : Profile} {r : Rule} : p.IsFor subject → .profile q ∈ p.items →
      Governs subject q r → Governs subject p r

/-- The rule is one of the items, or governs the subject in one of them. -/
def ItemsGovern (subject : String) (items : List (Item Profile)) (r : Rule) : Prop :=
  .rule r ∈ items ∨ ∃ q, .profile q ∈ items ∧ Governs subject q r

theorem governs_iff {subject : String} {p : Profile} {r : Rule} :
    p.Governs subject r ↔ p.IsFor subject ∧ ItemsGovern subject p.items r := by
  refine ⟨fun h => ?_, fun ⟨hfor, h⟩ => ?_⟩
  · cases h with
    | own hfor hr => exact ⟨hfor, .inl hr⟩
    | within hfor hq h => exact ⟨hfor, .inr ⟨_, hq, h⟩⟩
  · rcases h with hr | ⟨q, hq, h⟩
    · exact .own hfor hr
    · exact .within hfor hq h

theorem itemsGovern_nil {subject : String} {r : Rule} : ¬ ItemsGovern subject [] r := by
  intro h
  rcases h with h | ⟨q, h, _⟩ <;> exact absurd h List.not_mem_nil

theorem itemsGovern_rule {subject : String} {items : List (Item Profile)} {r s : Rule} :
    ItemsGovern subject (.rule s :: items) r ↔ r = s ∨ ItemsGovern subject items r := by
  simp [ItemsGovern, or_assoc]

theorem itemsGovern_profile {subject : String} {items : List (Item Profile)} {p : Profile}
    {r : Rule} : ItemsGovern subject (.profile p :: items) r ↔
      Governs subject p r ∨ ItemsGovern subject items r := by
  simp only [ItemsGovern, List.mem_cons, reduceCtorEq, false_or, Item.profile.injEq,
    or_and_right, exists_or, exists_eq_left]
  exact or_left_comm

/-! ## Rules of one kind -/

theorem mem_itemRulesOf_rule {k : ObjectKind} {items : List (Item Profile)} {r s : Rule} :
    r ∈ itemRulesOf k (.rule s :: items) ↔
      (r.kind = k ∧ r = s) ∨ r ∈ itemRulesOf k items := by
  rw [itemRulesOf]
  split
  · rename_i hk
    rw [List.mem_cons]
    refine or_congr_left ⟨fun h => ⟨h ▸ hk, h⟩, fun h => h.2⟩
  · rename_i hk
    refine ⟨.inr, fun h => ?_⟩
    rcases h with ⟨hkind, rfl⟩ | h
    · exact absurd hkind hk
    · exact h

theorem itemRulesOf_append (k : ObjectKind) (xs ys : List (Item Profile)) :
    itemRulesOf k (xs ++ ys) = itemRulesOf k xs ++ itemRulesOf k ys := by
  induction xs with
  | nil => simp [itemRulesOf]
  | cons item xs ih =>
    cases item with
    | rule r =>
      rw [List.cons_append, itemRulesOf, itemRulesOf, ih]
      split <;> rfl
    | profile p => rw [List.cons_append, itemRulesOf, itemRulesOf, ih, List.append_assoc]

/-- The rules of a kind in a profile that may be missing. -/
theorem itemRulesOf_profile? (k : ObjectKind) (kept : Option Profile) :
    itemRulesOf k (kept.map Item.profile).toList = kept.toList.flatMap (rulesOf k) := by
  cases kept <;> simp [itemRulesOf]

/-! ## Filtering profiles -/

mutual

theorem transparent_filter (subject : String) : ∀ p : Profile, (filter subject p).Transparent
  | ⟨name, attachments, modifier, items⟩ => by
    rw [filter]
    apply transparent_bind (Cache.transparent_matchesAny attachments subject)
    intro found
    cases found
    · exact transparent_pure none
    · exact transparent_bind (transparent_filterItems subject items) fun _ => transparent_pure _

theorem transparent_filterItems (subject : String) :
    ∀ items : List (Item Profile), (filterItems subject items).Transparent
  | [] => by
    rw [filterItems]
    exact transparent_pure []
  | .rule r :: items => by
    rw [filterItems]
    exact transparent_bind (transparent_filterItems subject items) fun _ => transparent_pure _
  | .profile p :: items => by
    rw [filterItems]
    apply transparent_bind (transparent_filter subject p)
    intro first
    exact transparent_bind (transparent_filterItems subject items) fun _ => transparent_pure _

end

theorem fresh_filter (subject name : String) (attachments : List String)
    (modifier : Option String) (items : List (Item Profile)) :
    (filter subject ⟨name, attachments, modifier, items⟩).fresh =
      (Cache.matchesAny attachments subject).fresh.bind fun found =>
        if found then
          (filterItems subject items).fresh.map fun kept => some ⟨name, attachments, modifier, kept⟩
        else .ok none := by
  have rest : ∀ found : Bool, Transparent (if found then do
      let kept ← filterItems subject items
      return some ⟨name, attachments, modifier, kept⟩
    else return none : Cached (Option Profile)) := by
    intro found
    cases found
    · exact transparent_pure none
    · exact transparent_bind (transparent_filterItems subject items) fun _ => transparent_pure _
  rw [filter, fresh_bind rest]
  congr
  funext found
  cases found
  · rfl
  · exact fresh_map

theorem fresh_filterItems_rule (subject : String) (r : Rule) (items : List (Item Profile)) :
    (filterItems subject (.rule r :: items)).fresh =
      (filterItems subject items).fresh.map fun kept => .rule r :: kept := by
  rw [filterItems, fresh_map]

theorem fresh_filterItems_profile (subject : String) (p : Profile) (items : List (Item Profile)) :
    (filterItems subject (.profile p :: items)).fresh =
      (filter subject p).fresh.bind fun first =>
        (filterItems subject items).fresh.map fun kept =>
          (first.map Item.profile).toList ++ kept := by
  rw [filterItems, fresh_bind fun _ =>
    transparent_bind (transparent_filterItems subject items) fun _ => transparent_pure _]
  congr
  funext first
  exact fresh_map

mutual

/-- What is left of a profile has the rules that govern the subject. -/
theorem mem_rulesOf_filter (subject : String) : ∀ (p : Profile) {kept : Option Profile},
    (filter subject p).fresh = .ok kept → ∀ k r,
      r ∈ kept.toList.flatMap (rulesOf k) ↔ r.kind = k ∧ Governs subject p r
  | ⟨name, attachments, modifier, items⟩, kept, h, k, r => by
    rw [fresh_filter] at h
    obtain ⟨found, hfound, h⟩ := exists_ok_of_bind h
    have hfor : found = true ↔ IsFor ⟨name, attachments, modifier, items⟩ subject :=
      Cache.matchesAny_spec hfound
    rw [governs_iff, ← hfor]
    -- a profile that is not for the subject goes with all profiles in it
    cases found with
    | false =>
      injection h with h
      simp [← h]
    | true =>
      obtain ⟨left, hleft, rfl⟩ := exists_ok_of_map h
      have := mem_itemRulesOf_filterItems subject items hleft k r
      simpa [rulesOf] using this

theorem mem_itemRulesOf_filterItems (subject : String) :
    ∀ (items : List (Item Profile)) {kept : List (Item Profile)},
      (filterItems subject items).fresh = .ok kept → ∀ k r,
        r ∈ itemRulesOf k kept ↔ r.kind = k ∧ ItemsGovern subject items r
  | [], kept, h, k, r => by
    rw [filterItems, fresh_pure] at h
    injection h with h
    simp [← h, itemRulesOf, itemsGovern_nil]
  | .rule s :: items, kept, h, k, r => by
    rw [fresh_filterItems_rule] at h
    obtain ⟨left, hleft, rfl⟩ := exists_ok_of_map h
    rw [mem_itemRulesOf_rule, mem_itemRulesOf_filterItems subject items hleft,
      itemsGovern_rule, and_or_left]
  | .profile p :: items, kept, h, k, r => by
    rw [fresh_filterItems_profile] at h
    obtain ⟨first, hfirst, h⟩ := exists_ok_of_bind h
    obtain ⟨left, hleft, rfl⟩ := exists_ok_of_map h
    rw [itemRulesOf_append, List.mem_append, itemRulesOf_profile?,
      mem_rulesOf_filter subject p hfirst, mem_itemRulesOf_filterItems subject items hleft,
      itemsGovern_profile, and_or_left]

end

/-- All attachments of some profiles compile. -/
def AllCompile (ps : List Profile) : Prop := ∀ p ∈ ps, ∀ source ∈ p.attachments, Compiles source

instance (ps : List Profile) : Decidable (AllCompile ps) :=
  inferInstanceAs (Decidable (∀ p ∈ ps, ∀ source ∈ p.attachments, Compiles source))

theorem AllCompile.left {ps qs : List Profile} (h : AllCompile (ps ++ qs)) : AllCompile ps :=
  fun p hp => h p (List.mem_append_left _ hp)

theorem AllCompile.right {ps qs : List Profile} (h : AllCompile (ps ++ qs)) : AllCompile qs :=
  fun p hp => h p (List.mem_append_right _ hp)

mutual

theorem filter_answers (subject : String) : ∀ p : Profile, AllCompile p.walk →
    ∃ kept, (filter subject p).fresh = .ok kept
  | ⟨name, attachments, modifier, items⟩, h => by
    rw [walk, ← List.singleton_append] at h
    obtain ⟨found, hfound⟩ := Cache.matchesAny_answers (h.left _ (List.mem_singleton.2 rfl)) subject
    obtain ⟨kept, hkept⟩ := filterItems_answers subject items h.right
    refine ⟨if found then some ⟨name, attachments, modifier, kept⟩ else none, ?_⟩
    rw [fresh_filter, hfound, hkept]
    cases found <;> rfl

theorem filterItems_answers (subject : String) : ∀ items : List (Item Profile),
    AllCompile (walkItems items) → ∃ kept, (filterItems subject items).fresh = .ok kept
  | [], _ => ⟨[], by rw [filterItems, fresh_pure]⟩
  | .rule r :: items, h => by
    rw [walkItems] at h
    obtain ⟨kept, hkept⟩ := filterItems_answers subject items h
    exact ⟨.rule r :: kept, by rw [fresh_filterItems_rule, hkept]; rfl⟩
  | .profile p :: items, h => by
    rw [walkItems] at h
    obtain ⟨first, hfirst⟩ := filter_answers subject p h.left
    obtain ⟨kept, hkept⟩ := filterItems_answers subject items h.right
    refine ⟨(first.map Item.profile).toList ++ kept, ?_⟩
    rw [fresh_filterItems_profile, hfirst, hkept]
    rfl

end

/-! ## Filtering lists of profiles -/

theorem transparent_filterAll (subject : String) (ps : List Profile) :
    (filterAll subject ps).Transparent := by
  induction ps with
  | nil => exact transparent_pure []
  | cons p ps ih =>
    exact transparent_bind (transparent_filter subject p) fun _ =>
      transparent_bind ih fun _ => transparent_pure _

theorem fresh_filterAll_cons (subject : String) (p : Profile) (ps : List Profile) :
    (filterAll subject (p :: ps)).fresh =
      (filter subject p).fresh.bind fun first =>
        (filterAll subject ps).fresh.map fun kept => first.toList ++ kept := by
  rw [filterAll, fresh_bind fun _ =>
    transparent_bind (transparent_filterAll subject ps) fun _ => transparent_pure _]
  congr
  funext first
  exact fresh_map

theorem mem_rulesOf_filterAll {subject : String} {ps kept : List Profile}
    (h : (filterAll subject ps).fresh = .ok kept) (k : ObjectKind) (r : Rule) :
    r ∈ kept.flatMap (rulesOf k) ↔ r.kind = k ∧ ∃ p ∈ ps, p.Governs subject r := by
  induction ps generalizing kept with
  | nil =>
    rw [filterAll, fresh_pure] at h
    injection h with h
    simp [← h]
  | cons p ps ih =>
    rw [fresh_filterAll_cons] at h
    obtain ⟨first, hfirst, h⟩ := exists_ok_of_bind h
    obtain ⟨left, hleft, rfl⟩ := exists_ok_of_map h
    rw [List.flatMap_append, List.mem_append, mem_rulesOf_filter subject p hfirst, ih hleft,
      ← and_or_left]
    simp

theorem filterAll_answers {ps : List Profile} (h : AllCompile (ps.flatMap walk))
    (subject : String) : ∃ kept, (filterAll subject ps).fresh = .ok kept := by
  induction ps with
  | nil => exact ⟨[], rfl⟩
  | cons p ps ih =>
    rw [List.flatMap_cons] at h
    obtain ⟨first, hfirst⟩ := filter_answers subject p h.left
    obtain ⟨kept, hkept⟩ := ih h.right
    exact ⟨first.toList ++ kept, by rw [fresh_filterAll_cons, hfirst, hkept]; rfl⟩

end Profile

end AccessPolicy
