import AccessPolicy.Document.Basic
import AccessPolicy.Proofs.Profile.Reattached

/-!
# Where the profiles stand that filtering keeps

The place of a profile is the way down to it, by the numbers of the items. Filtering, when it
answers, leaves the profiles at the places that it keeps (`Profile.filter_eq_restrict`): those
where the profile and all profiles around it are for the subject. These places are the same
when attachments stand in another order (`Profile.isKept_reattached`), and so are the rules
that are left.
-/

namespace AccessPolicy

open Cached

instance (sources : List String) (name : String) : Decidable (Pattern.AnyMatches sources name) :=
  decidable_of_iff (∃ source ∈ sources,
      (Pattern.compile? source).toOption.any (fun p => p.isMatch name) = true) <| by
    refine exists_congr fun source => and_congr_right fun _ => ?_
    cases Pattern.compile? source <;> simp [Except.toOption]

namespace Profile

instance (p : Profile) (subject : String) : Decidable (p.IsFor subject) :=
  inferInstanceAs (Decidable (Pattern.AnyMatches p.attachments subject))

/-! ## Places -/

/-- The profile at a place is for the subject, and so are all profiles around it. -/
def isKept (subject : String) : List Nat → Profile → Bool
  | [], p => decide (p.IsFor subject)
  | i :: place, p => decide (p.IsFor subject) &&
    match p.items[i]? with
    | some (.profile c) => isKept subject place c
    | _ => false

mutual

/-- The profile with those profiles inside that stand at some places. A profile that is left
out goes with all profiles in it. -/
def restrict (kept : List Nat → Bool) : Profile → Profile
  | ⟨name, attachments, modifier, items⟩ =>
    ⟨name, attachments, modifier, restrictItems kept 0 items⟩

/-- The items, counted from a number, with the profiles that stand at some places. -/
def restrictItems (kept : List Nat → Bool) (n : Nat) :
    List (Item Profile) → List (Item Profile)
  | [] => []
  | .rule r :: items => .rule r :: restrictItems kept (n + 1) items
  | .profile p :: items =>
    if kept [n] then
      .profile (restrict (fun place => kept (n :: place)) p) :: restrictItems kept (n + 1) items
    else restrictItems kept (n + 1) items

end

/-- The profiles of a list, counted from a number, that stand at some places. -/
def restrictAll (kept : List Nat → Bool) (n : Nat) : List Profile → List Profile
  | [] => []
  | p :: ps =>
    if kept [n] then
      p.restrict (fun place => kept (n :: place)) :: restrictAll kept (n + 1) ps
    else restrictAll kept (n + 1) ps

variable {subject : String} {kept : List Nat → Bool} {n : Nat}

mutual

/-- What is left of a profile are the places that are kept. -/
theorem filter_eq_restrict (subject : String) : ∀ (p : Profile) {left : Option Profile},
    (filter subject p).fresh = .ok left →
      left = if p.IsFor subject then some (p.restrict fun place => p.isKept subject place) else none
  | ⟨name, attachments, modifier, items⟩, left, h => by
    rw [fresh_filter] at h
    obtain ⟨found, hfound, h⟩ := exists_ok_of_bind h
    have isFor : found = true ↔ IsFor ⟨name, attachments, modifier, items⟩ subject :=
      Cache.matchesAny_spec hfound
    cases found with
    | false =>
      rw [if_neg fun hfor => nomatch isFor.2 hfor]
      exact (Except.ok.inj h).symm
    | true =>
      have hfor := isFor.1 rfl
      obtain ⟨items', hitems, rfl⟩ := exists_ok_of_map h
      rw [if_pos hfor, restrict]
      refine congrArg (fun items' => some (⟨name, attachments, modifier, items'⟩ : Profile))
        (filterItems_eq_restrictItems subject items hitems fun i c hc place => ?_)
      rw [Nat.zero_add, isKept, decide_eq_true hfor, Bool.true_and]
      show (match items[i]? with
        | some (.profile c) => isKept subject place c
        | _ => false) = _
      rw [hc]

theorem filterItems_eq_restrictItems (subject : String) :
    ∀ (items : List (Item Profile)) {left : List (Item Profile)} {kept : List Nat → Bool}
      {n : Nat}, (filterItems subject items).fresh = .ok left →
        (∀ i c, items[i]? = some (.profile c) →
          ∀ place, kept ((n + i) :: place) = c.isKept subject place) →
        left = restrictItems kept n items
  | [], left, kept, n, h, _ => by
    rw [filterItems, fresh_pure] at h
    exact (Except.ok.inj h).symm
  | .rule r :: items, left, kept, n, h, hkept => by
    rw [fresh_filterItems_rule] at h
    obtain ⟨others, hothers, rfl⟩ := exists_ok_of_map h
    rw [restrictItems, ← filterItems_eq_restrictItems subject items hothers]
    intro i c hc place
    rw [Nat.add_right_comm]
    exact hkept (i + 1) c hc place
  | .profile p :: items, left, kept, n, h, hkept => by
    rw [fresh_filterItems_profile] at h
    obtain ⟨first, hfirst, h⟩ := exists_ok_of_bind h
    obtain ⟨others, hothers, rfl⟩ := exists_ok_of_map h
    have here : (fun place => kept (n :: place)) = fun place => p.isKept subject place :=
      funext fun place => hkept 0 p rfl place
    have kept_n : kept [n] = decide (p.IsFor subject) := congrFun here []
    rw [restrictItems, here, kept_n, filter_eq_restrict subject p hfirst,
      ← filterItems_eq_restrictItems subject items hothers]
    · by_cases hfor : p.IsFor subject <;> simp [hfor]
    · intro i c hc place
      rw [Nat.add_right_comm]
      exact hkept (i + 1) c hc place

end

theorem filterAll_eq_restrictAll {ps left : List Profile}
    (h : (filterAll subject ps).fresh = .ok left)
    (hkept : ∀ i p, ps[i]? = some p → ∀ place, kept ((n + i) :: place) = p.isKept subject place) :
    left = restrictAll kept n ps := by
  induction ps generalizing left n with
  | nil =>
    rw [filterAll, fresh_pure] at h
    exact (Except.ok.inj h).symm
  | cons p ps ih =>
    rw [fresh_filterAll_cons] at h
    obtain ⟨first, hfirst, h⟩ := exists_ok_of_bind h
    obtain ⟨others, hothers, rfl⟩ := exists_ok_of_map h
    have here : (fun place => kept (n :: place)) = fun place => p.isKept subject place :=
      funext fun place => hkept 0 p rfl place
    have kept_n : kept [n] = decide (p.IsFor subject) := congrFun here []
    rw [restrictAll, here, kept_n, filter_eq_restrict subject p hfirst, ← ih hothers]
    · by_cases hfor : p.IsFor subject <;> simp [hfor]
    · intro i c hc place
      rw [Nat.add_right_comm]
      exact hkept (i + 1) c hc place

/-! ## Places with attachments in another order -/

/-- The places that are kept do not depend on the order of attachments. -/
theorem isKept_reattached {p q : Profile} (h : p.Reattached q) (place : List Nat) :
    p.isKept subject place = q.isKept subject place := by
  induction place generalizing p q with
  | nil => exact decide_eq_decide.2 h.isFor
  | cons i place ih =>
    rw [isKept, isKept, decide_eq_decide.2 h.isFor]
    congr 1
    split
    · rename_i c hc
      obtain ⟨d, hd, hcd⟩ := h.items.getElem? hc
      rw [hd]
      exact ih hcd
    · rename_i hother
      split
      · rename_i d hd
        obtain ⟨c, hc, _⟩ := h.symm.items.getElem? hd
        exact absurd hc (hother c)
      · rfl

mutual

theorem Reattached.restrict : ∀ {p q : Profile} (kept : List Nat → Bool), p.Reattached q →
    (p.restrict kept).Reattached (q.restrict kept)
  | ⟨_, _, _, _⟩, ⟨_, _, _, _⟩, kept, h => by
    rw [Profile.restrict, Profile.restrict]
    exact ⟨h.1, h.2.1, h.2.2.1, ItemsReattached.restrictItems kept 0 h.2.2.2⟩

theorem ItemsReattached.restrictItems : ∀ {items items' : List (Item Profile)}
    (kept : List Nat → Bool) (n : Nat), ItemsReattached items items' →
      ItemsReattached (restrictItems kept n items) (restrictItems kept n items')
  | [], [], _, _, _ => trivial
  | .rule _ :: _, .rule _ :: _, kept, n, h =>
    ⟨h.1, ItemsReattached.restrictItems kept (n + 1) h.2⟩
  | .profile _ :: _, .profile _ :: _, kept, n, h => by
    have others := ItemsReattached.restrictItems kept (n + 1) h.2
    rw [Profile.restrictItems, Profile.restrictItems]
    split
    · exact ⟨h.1.restrict _, others⟩
    · exact others

end

mutual

/-- The order of attachments makes no difference for the rules in a profile. -/
theorem Reattached.rulesOf (kind : ObjectKind) : ∀ {p q : Profile}, p.Reattached q →
    p.rulesOf kind = q.rulesOf kind
  | ⟨_, _, _, _⟩, ⟨_, _, _, _⟩, h => ItemsReattached.itemRulesOf kind h.2.2.2

theorem ItemsReattached.itemRulesOf (kind : ObjectKind) :
    ∀ {items items' : List (Item Profile)}, ItemsReattached items items' →
      itemRulesOf kind items = itemRulesOf kind items'
  | [], [], _ => rfl
  | .rule _ :: _, .rule _ :: _, h => by
    rw [Profile.itemRulesOf, Profile.itemRulesOf, h.1, ItemsReattached.itemRulesOf kind h.2]
  | .profile _ :: _, .profile _ :: _, h => by
    rw [Profile.itemRulesOf, Profile.itemRulesOf, Reattached.rulesOf kind h.1,
      ItemsReattached.itemRulesOf kind h.2]

end

theorem AllReattached.rulesOf {ps qs : List Profile} (h : AllReattached ps qs)
    (kind : ObjectKind) : ps.flatMap (rulesOf kind) = qs.flatMap (rulesOf kind) := by
  induction h with
  | nil => rfl
  | cons first _ ih => rw [List.flatMap_cons, List.flatMap_cons, first.rulesOf kind, ih]

theorem AllReattached.restrictAll {ps qs : List Profile} (kept : List Nat → Bool) (n : Nat)
    (h : AllReattached ps qs) : AllReattached (restrictAll kept n ps) (restrictAll kept n qs) := by
  induction h generalizing n with
  | nil => exact .nil
  | cons first _ ih =>
    rw [Profile.restrictAll, Profile.restrictAll]
    split
    · exact .cons (first.restrict _) (ih (n + 1))
    · exact ih (n + 1)

end Profile

/-! ## Documents -/

namespace Document

/-- The documents are the same, but for the order in which profiles list their attachments. -/
structure Reattached (d d' : Document) : Prop where
  origin : d.origin = d'.origin
  profiles : Profile.AllReattached d.profiles d'.profiles

instance (d d' : Document) : Decidable (d.Reattached d') :=
  decidable_of_iff (d.origin = d'.origin ∧ Profile.AllReattached d.profiles d'.profiles)
    ⟨fun h => ⟨h.1, h.2⟩, fun h => ⟨h.origin, h.profiles⟩⟩

/-- The profile at a place of the document is for the subject, and so are all profiles around
it. -/
def isKept (subject : String) (d : Document) : List Nat → Bool
  | [] => false
  | i :: place => d.profiles[i]?.any fun p => p.isKept subject place

/-- The document with the profiles that stand at some places. -/
def restrict (kept : List Nat → Bool) (d : Document) : Document :=
  { d with profiles := Profile.restrictAll kept 0 d.profiles }

/-- What is left of a document are the places that are kept. -/
theorem filter_eq_restrict {subject : String} {d left : Document}
    (h : (d.filter subject).fresh = .ok left) : left = d.restrict (d.isKept subject) := by
  rw [filter, fresh_map] at h
  obtain ⟨profiles, hprofiles, rfl⟩ := exists_ok_of_map h
  rw [restrict, ← Profile.filterAll_eq_restrictAll hprofiles]
  intro i p hp place
  rw [Nat.zero_add, isKept, hp, Option.any_some]

/-- The places that are kept do not depend on the order of attachments. -/
theorem isKept_reattached {subject : String} {d d' : Document} (h : d.Reattached d') :
    d.isKept subject = d'.isKept subject := by
  funext place
  cases place with
  | nil => rfl
  | cons i place =>
    rw [isKept, isKept]
    have profiles := h.profiles
    generalize d.profiles = ps at profiles ⊢
    generalize d'.profiles = qs at profiles ⊢
    induction profiles generalizing i with
    | nil => rfl
    | cons first _ ih =>
      cases i with
      | zero => exact Profile.isKept_reattached first place
      | succ i => exact ih i

/-- What is left of documents that differ in the order of attachments differs in nothing
else. -/
theorem Reattached.restrict {d d' : Document} (h : d.Reattached d') (kept : List Nat → Bool) :
    (d.restrict kept).Reattached (d'.restrict kept) :=
  ⟨h.origin, h.profiles.restrictAll kept 0⟩

theorem Reattached.rulesOf {d d' : Document} (h : d.Reattached d') (kind : ObjectKind) :
    d.rulesOf kind = d'.rulesOf kind :=
  h.profiles.rulesOf kind

end Document

end AccessPolicy
