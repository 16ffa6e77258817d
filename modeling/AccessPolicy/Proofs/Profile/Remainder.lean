import AccessPolicy.Proofs.Profile.Places

/-!
# What filtering leaves of a profile

A profile occurs in another one inside the profiles around it (`Profile.occurrences`).
Filtering leaves those occurrences where the profile and all profiles around it are for the
subject (`Profile.occurrences_remainder`). A profile that is left keeps its name, its
attachments, its modifier and its rules, and its items keep their order
(`Profile.retains_remainder`). Filtering what is left for the same subject leaves all of it
(`Profile.filter_of_filter`).
-/

namespace AccessPolicy

open Cached

namespace Profile

variable {subject : String}

/-! ## Occurrences -/

/-- A profile with the profiles around it, the outer one first. -/
structure Occurrence where
  around : List Profile
  profile : Profile
deriving DecidableEq

/-- The occurrence with one more profile around it. -/
def Occurrence.within (p : Profile) (o : Occurrence) : Occurrence := ⟨p :: o.around, o.profile⟩

/-- The profile and all profiles around it are for the subject. -/
def Occurrence.IsKept (subject : String) (o : Occurrence) : Prop :=
  o.profile.IsFor subject ∧ ∀ p ∈ o.around, p.IsFor subject

instance (o : Occurrence) : Decidable (o.IsKept subject) :=
  inferInstanceAs (Decidable (o.profile.IsFor subject ∧ ∀ p ∈ o.around, p.IsFor subject))

mutual

/-- The profile and all profiles in it, each before those it holds. -/
def occurrences : Profile → List Occurrence
  | ⟨name, attachments, modifier, items⟩ =>
    ⟨[], ⟨name, attachments, modifier, items⟩⟩ ::
      (itemOccurrences items).map (.within ⟨name, attachments, modifier, items⟩)

/-- The profiles among some items and in them. -/
def itemOccurrences : List (Item Profile) → List Occurrence
  | [] => []
  | .rule _ :: items => itemOccurrences items
  | .profile p :: items => occurrences p ++ itemOccurrences items

end

theorem occurrences_eq (p : Profile) :
    p.occurrences = ⟨[], p⟩ :: (itemOccurrences p.items).map (.within p) := by
  cases p
  rw [occurrences]

mutual

/-- The profiles that occur are those that a walk comes by. -/
theorem map_profile_occurrences : ∀ p : Profile, p.occurrences.map (·.profile) = p.walk
  | ⟨name, attachments, modifier, items⟩ => by
    rw [occurrences, walk, List.map_cons, List.map_map, ← map_profile_itemOccurrences items]
    rfl

theorem map_profile_itemOccurrences : ∀ items : List (Item Profile),
    (itemOccurrences items).map (·.profile) = walkItems items
  | [] => rfl
  | .rule _ :: items => map_profile_itemOccurrences items
  | .profile p :: items => by
    rw [itemOccurrences, walkItems, List.map_append, map_profile_occurrences p,
      map_profile_itemOccurrences items]

end

/-! ## What is left -/

/-- What is left of a profile that is for the subject. -/
def remainder (subject : String) (p : Profile) : Profile :=
  p.restrict fun place => p.isKept subject place

/-- What is left of an item: a rule as it is, and of a profile its remainder, if it is for the
subject. -/
def itemRemainder? (subject : String) : Item Profile → Option (Item Profile)
  | .rule r => some (.rule r)
  | .profile p => if p.IsFor subject then some (.profile (p.remainder subject)) else none

/-- What is left of an occurrence. -/
def Occurrence.remainder (subject : String) (o : Occurrence) : Occurrence :=
  ⟨o.around.map (Profile.remainder subject), o.profile.remainder subject⟩

/-- The second profile is the first one without the profiles inside that are not for the
subject. -/
structure Retains (subject : String) (p q : Profile) : Prop where
  name : q.name = p.name
  attachments : q.attachments = p.attachments
  modifier : q.modifier = p.modifier
  rules : q.rules = p.rules
  items : q.items = p.items.filterMap (itemRemainder? subject)

theorem filterMap_itemRemainder?_rule (r : Rule) (items : List (Item Profile)) :
    (Item.rule r :: items).filterMap (itemRemainder? subject) =
      .rule r :: items.filterMap (itemRemainder? subject) := rfl

theorem filterMap_itemRemainder?_profile (p : Profile) (items : List (Item Profile)) :
    (Item.profile p :: items).filterMap (itemRemainder? subject) =
      if p.IsFor subject then
        .profile (p.remainder subject) :: items.filterMap (itemRemainder? subject)
      else items.filterMap (itemRemainder? subject) := by
  rw [List.filterMap_cons, itemRemainder?]
  by_cases hfor : p.IsFor subject
  · rw [if_pos hfor, if_pos hfor]
  · rw [if_neg hfor, if_neg hfor]

theorem restrictItems_eq_filterMap {items : List (Item Profile)} {kept : List Nat → Bool} {n : Nat}
    (h : ∀ i c, items[i]? = some (.profile c) →
      ∀ place, kept ((n + i) :: place) = c.isKept subject place) :
    restrictItems kept n items = items.filterMap (itemRemainder? subject) := by
  induction items generalizing n with
  | nil => rfl
  | cons item items ih =>
    have rest := ih (n := n + 1) fun i c hc place => by
      rw [Nat.add_right_comm]
      exact h (i + 1) c hc place
    cases item with
    | rule r => rw [restrictItems, rest, filterMap_itemRemainder?_rule]
    | profile p =>
      have here : (fun place => kept (n :: place)) = fun place => p.isKept subject place :=
        funext fun place => h 0 p rfl place
      have kept_n : kept [n] = decide (p.IsFor subject) := congrFun here []
      rw [restrictItems, rest, here, kept_n, filterMap_itemRemainder?_profile, remainder]
      simp only [decide_eq_true_eq]

theorem items_remainder {p : Profile} (h : p.IsFor subject) :
    (p.remainder subject).items = p.items.filterMap (itemRemainder? subject) := by
  obtain ⟨name, attachments, modifier, items⟩ := p
  rw [remainder, restrict]
  refine restrictItems_eq_filterMap fun i c hc place => ?_
  rw [Nat.zero_add, isKept, decide_eq_true h, Bool.true_and]
  simp only [hc]

theorem retains_remainder {p : Profile} (h : p.IsFor subject) :
    p.Retains subject (p.remainder subject) := by
  have own : (p.remainder subject).name = p.name ∧
      (p.remainder subject).attachments = p.attachments ∧
      (p.remainder subject).modifier = p.modifier := by
    cases p
    rw [remainder, restrict]
    exact ⟨rfl, rfl, rfl⟩
  refine ⟨own.1, own.2.1, own.2.2, ?_, items_remainder h⟩
  rw [rules, items_remainder h, List.filterMap_filterMap, rules]
  refine List.filterMap_congr fun item _ => ?_
  cases item with
  | rule r => rfl
  | profile c =>
    rw [itemRemainder?]
    split <;> rfl

/-- An occurrence inside is kept when it is kept by itself and the profile is for the subject. -/
theorem isKept_within {p : Profile} {o : Occurrence} :
    (o.within p).IsKept subject ↔ p.IsFor subject ∧ o.IsKept subject := by
  rw [Occurrence.IsKept, Occurrence.IsKept, Occurrence.within, List.forall_mem_cons]
  exact and_left_comm

/-- Nothing is kept of a profile that is not for the subject. -/
theorem filter_occurrences_of_not {p : Profile} (h : ¬ p.IsFor subject) :
    p.occurrences.filter (·.IsKept subject) = [] := by
  rw [List.filter_eq_nil_iff, occurrences_eq, List.forall_mem_cons, List.forall_mem_map]
  simp only [decide_eq_true_eq, isKept_within]
  exact ⟨fun kept => h kept.1, fun _ _ kept => h kept.1⟩

/-- What is left of a profile has the occurrences that are kept. -/
theorem occurrences_remainder {p : Profile} (h : p.IsFor subject) :
    (p.remainder subject).occurrences =
      (p.occurrences.filter (·.IsKept subject)).map (·.remainder subject) := by
  induction p using inductionOn with
  | step p ih =>
    have inner : ∀ items : List (Item Profile), items ⊆ p.items →
        itemOccurrences (items.filterMap (itemRemainder? subject)) =
          ((itemOccurrences items).filter (·.IsKept subject)).map (·.remainder subject) := by
      intro items hitems
      induction items with
      | nil => rfl
      | cons item items rest =>
        obtain ⟨hitem, hothers⟩ := List.cons_subset.1 hitems
        cases item with
        | rule r => exact rest hothers
        | profile c =>
          rw [filterMap_itemRemainder?_profile, itemOccurrences, List.filter_append,
            List.map_append, ← rest hothers]
          by_cases hfor : c.IsFor subject
          · rw [if_pos hfor, itemOccurrences, ih c hitem hfor]
          · rw [if_neg hfor, filter_occurrences_of_not hfor, List.map_nil, List.nil_append]
    have outer : (⟨[], p⟩ : Occurrence).IsKept subject := ⟨h, fun _ hq => nomatch hq⟩
    have within : ((itemOccurrences p.items).map (Occurrence.within p)).filter
          (fun o => o.IsKept subject) =
        ((itemOccurrences p.items).filter fun o => o.IsKept subject).map (Occurrence.within p) := by
      rw [List.filter_map]
      refine congrArg _ (List.filter_congr fun o _ => ?_)
      rw [Function.comp_apply, decide_eq_decide, isKept_within, and_iff_right h]
    rw [occurrences_eq, occurrences_eq p, items_remainder h, inner p.items (List.Subset.refl _),
      List.filter_cons, if_pos (decide_eq_true outer), within, List.map_cons, List.map_map,
      List.map_map]
    rfl

/-! ## Filtering again -/

mutual

/-- Filtering what is left for the same subject leaves all of it. -/
theorem filter_of_filter (subject : String) : ∀ (p : Profile) {left : Profile},
    (filter subject p).fresh = .ok (some left) → (filter subject left).fresh = .ok (some left)
  | ⟨name, attachments, modifier, items⟩, left, h => by
    rw [fresh_filter] at h
    obtain ⟨found, hfound, h⟩ := exists_ok_of_bind h
    cases found with
    | false => nomatch h
    | true =>
      obtain ⟨items', hitems, heq⟩ := exists_ok_of_map h
      obtain rfl := Option.some.inj heq
      rw [fresh_filter, hfound, Except.bind, if_pos rfl,
        filterItems_of_filterItems subject items hitems]
      rfl

theorem filterItems_of_filterItems (subject : String) :
    ∀ (items : List (Item Profile)) {left : List (Item Profile)},
      (filterItems subject items).fresh = .ok left → (filterItems subject left).fresh = .ok left
  | [], left, h => by
    rw [filterItems, fresh_pure] at h
    obtain rfl := Except.ok.inj h
    rfl
  | .rule r :: items, left, h => by
    rw [fresh_filterItems_rule] at h
    obtain ⟨others, hothers, rfl⟩ := exists_ok_of_map h
    rw [fresh_filterItems_rule, filterItems_of_filterItems subject items hothers]
    rfl
  | .profile p :: items, left, h => by
    rw [fresh_filterItems_profile] at h
    obtain ⟨first, hfirst, h⟩ := exists_ok_of_bind h
    obtain ⟨others, hothers, rfl⟩ := exists_ok_of_map h
    have again := filterItems_of_filterItems subject items hothers
    cases first with
    | none => exact again
    | some q =>
      show (filterItems subject (.profile q :: others)).fresh = _
      rw [fresh_filterItems_profile, filter_of_filter subject p hfirst, again]
      rfl

end

/-! ## Lists of profiles -/

theorem filterAll_eq_map {ps left : List Profile} (h : (filterAll subject ps).fresh = .ok left) :
    left = (ps.filter (·.IsFor subject)).map (remainder subject) := by
  induction ps generalizing left with
  | nil =>
    rw [filterAll, fresh_pure] at h
    exact (Except.ok.inj h).symm
  | cons p ps ih =>
    rw [fresh_filterAll_cons] at h
    obtain ⟨first, hfirst, h⟩ := exists_ok_of_bind h
    obtain ⟨others, hothers, rfl⟩ := exists_ok_of_map h
    rw [filter_eq_restrict subject p hfirst, ih hothers, List.filter_cons]
    by_cases hfor : p.IsFor subject <;> simp [hfor, remainder]

theorem filterAll_of_filterAll {ps left : List Profile}
    (h : (filterAll subject ps).fresh = .ok left) : (filterAll subject left).fresh = .ok left := by
  induction ps generalizing left with
  | nil =>
    rw [filterAll, fresh_pure] at h
    obtain rfl := Except.ok.inj h
    rfl
  | cons p ps ih =>
    rw [fresh_filterAll_cons] at h
    obtain ⟨first, hfirst, h⟩ := exists_ok_of_bind h
    obtain ⟨others, hothers, rfl⟩ := exists_ok_of_map h
    have again := ih hothers
    cases first with
    | none => exact again
    | some q =>
      show (filterAll subject (q :: others)).fresh = _
      rw [fresh_filterAll_cons, filter_of_filter subject p hfirst, again]
      rfl

/-- What is left of some profiles has the occurrences that are kept. -/
theorem occurrences_map_remainder (ps : List Profile) :
    ((ps.filter (·.IsFor subject)).map (remainder subject)).flatMap occurrences =
      ((ps.flatMap occurrences).filter (·.IsKept subject)).map (·.remainder subject) := by
  induction ps with
  | nil => rfl
  | cons p ps ih =>
    rw [List.flatMap_cons, List.filter_append, List.map_append, ← ih]
    by_cases hfor : p.IsFor subject
    · rw [List.filter_cons, if_pos (decide_eq_true hfor), List.map_cons, List.flatMap_cons,
        occurrences_remainder hfor]
    · rw [List.filter_cons, if_neg (by simpa using hfor), filter_occurrences_of_not hfor,
        List.map_nil, List.nil_append]

end Profile

end AccessPolicy
