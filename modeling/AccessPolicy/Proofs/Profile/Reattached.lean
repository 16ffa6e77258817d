import AccessPolicy.Proofs.Profile.Keeps
import Mathlib.Data.List.Perm.Basic

/-!
# Attachments in another order

The attachments of a profile are compiled one after the other, up to the first that matches
the subject. Where all of them compile their order has no influence, and where none matches
one that does not compile fails in any order (`Pattern.IsBroken`). Only where one matches and
another does not compile, the order decides (`Pattern.IsMixed`).

Filtering looks at the attachments of the profiles that it reaches: those around which all
are for the subject (`Profile.answers_filter_iff`). So it answers in all orders or in none, if
no reached profile is mixed or some is broken (`Profile.answers_of_orderFree`), and otherwise
it answers in one order and fails in another (`Profile.orderFree_of_answers`).
-/

namespace AccessPolicy

/-- The work does not fail. -/
def Cached.Answers {α : Type} (work : Cached α) : Prop := ∃ a, work.fresh = .ok a

/-! ## The attachments of one profile -/

namespace Pattern

/-- One of the patterns matches the name, and another does not compile. -/
def IsMixed (sources : List String) (name : String) : Prop :=
  AnyMatches sources name ∧ ∃ source ∈ sources, ¬ Compiles source

/-- None of the patterns matches the name, and one does not compile. -/
def IsBroken (sources : List String) (name : String) : Prop :=
  ¬ AnyMatches sources name ∧ ∃ source ∈ sources, ¬ Compiles source

variable {sources sources' : List String} {name : String}

theorem isMixed_perm (h : sources.Perm sources') :
    IsMixed sources name ↔ IsMixed sources' name := by
  simp only [IsMixed, AnyMatches, h.mem_iff]

theorem isBroken_perm (h : sources.Perm sources') :
    IsBroken sources name ↔ IsBroken sources' name := by
  simp only [IsBroken, AnyMatches, h.mem_iff]

end Pattern

namespace Cache

open Pattern (AnyMatches Compiles IsMixed IsBroken)

variable {sources : List String} {name source : String}

/-- All patterns are compiled before none is said to match. -/
theorem compiles_of_matchesAny (h : (matchesAny sources name).fresh = .ok false) :
    ∀ source ∈ sources, Compiles source := by
  induction sources with
  | nil => exact fun _ hsource => absurd hsource List.not_mem_nil
  | cons source sources ih =>
    rw [fresh_matchesAny_cons] at h
    obtain ⟨p, hp, h⟩ := exists_ok_of_bind h
    split at h
    · nomatch h
    · exact List.forall_mem_cons.2 ⟨⟨p, hp⟩, ih h⟩

/-- Unless one matches and another does not compile, patterns answer exactly when they all
compile. -/
theorem answers_matchesAny_iff (h : ¬ IsMixed sources name) :
    (matchesAny sources name).Answers ↔ ∀ source ∈ sources, Compiles source := by
  refine ⟨fun ⟨found, hfound⟩ => ?_, fun hcompile => matchesAny_answers hcompile name⟩
  cases found with
  | false => exact compiles_of_matchesAny hfound
  | true =>
    intro source hsource
    by_contra hbad
    exact h ⟨(matchesAny_spec hfound).1 rfl, source, hsource, hbad⟩

theorem not_answers_of_isBroken (h : IsBroken sources name) :
    ¬ (matchesAny sources name).Answers := by
  obtain ⟨hnone, source, hsource, hbad⟩ := h
  have unmixed : ¬ IsMixed sources name := fun hmixed => hnone hmixed.1
  exact fun hanswers => hbad ((answers_matchesAny_iff unmixed).1 hanswers source hsource)

/-- The members that pass a test, in front of the others. -/
def putFirst (test : String → Bool) (sources : List String) : List String :=
  sources.filter test ++ sources.filter fun source => !test source

theorem putFirst_perm (test : String → Bool) (sources : List String) :
    (putFirst test sources).Perm sources :=
  List.filter_append_perm test sources

/-- If one member passes the test, then one that does comes first. -/
theorem exists_putFirst (test : String → Bool) (hsource : source ∈ sources)
    (htest : test source = true) :
    ∃ first others, putFirst test sources = first :: others ∧ test first = true := by
  have mem : source ∈ sources.filter test := List.mem_filter.2 ⟨hsource, htest⟩
  obtain ⟨first, others, hfirst⟩ := List.exists_cons_of_ne_nil (List.ne_nil_of_mem mem)
  have passes : first ∈ sources.filter test := hfirst ▸ List.mem_cons_self
  exact ⟨first, _, by rw [putFirst, hfirst, List.cons_append], (List.mem_filter.1 passes).2⟩

/-- Patterns of which one matches answer when those that match come first. -/
theorem answers_of_matching_first (h : AnyMatches sources name) :
    (matchesAny (putFirst (fun source => (Pattern.compile? source).toOption.any
      fun p => p.isMatch name) sources) name).Answers := by
  obtain ⟨source, hsource, p, hp, hm⟩ := h
  obtain ⟨first, others, hfirst, htest⟩ := exists_putFirst
    (fun source => (Pattern.compile? source).toOption.any fun p => p.isMatch name)
    hsource (by rw [hp]; exact hm)
  rw [hfirst, Cached.Answers, fresh_matchesAny_cons]
  cases hq : Pattern.compile? first with
  | error e =>
    rw [hq] at htest
    nomatch htest
  | ok q =>
    rw [hq] at htest
    exact ⟨true, if_pos htest⟩

/-- Patterns of which one does not compile fail when those that do not come first. -/
theorem not_answers_of_bad_first (hsource : source ∈ sources) (hbad : ¬ Compiles source) :
    ¬ (matchesAny (putFirst (fun source => !decide (Compiles source)) sources) name).Answers := by
  obtain ⟨first, others, hfirst, htest⟩ := exists_putFirst
    (fun source => !decide (Compiles source)) hsource (by simpa using hbad)
  rintro ⟨found, hfound⟩
  rw [hfirst, fresh_matchesAny_cons] at hfound
  obtain ⟨p, hp, _⟩ := exists_ok_of_bind hfound
  simp only [Bool.not_eq_true', decide_eq_false_iff_not] at htest
  exact htest ⟨p, hp⟩

end Cache

namespace Profile

open Cached
open Pattern (Compiles IsMixed IsBroken)

/-! ## Profiles that differ in the order of attachments -/

mutual

/-- The profiles are the same, but for the order in which they and those inside list their
attachments. -/
def Reattached : Profile → Profile → Prop
  | ⟨name, attachments, modifier, items⟩, ⟨name', attachments', modifier', items'⟩ =>
    name = name' ∧ attachments.Perm attachments' ∧ modifier = modifier' ∧
      ItemsReattached items items'

/-- The items are the same, but for the order in which profiles list their attachments. -/
def ItemsReattached : List (Item Profile) → List (Item Profile) → Prop
  | [], [] => True
  | .rule r :: items, .rule r' :: items' => r = r' ∧ ItemsReattached items items'
  | .profile p :: items, .profile p' :: items' => Reattached p p' ∧ ItemsReattached items items'
  | _, _ => False

end

mutual

/-- Whether profiles are the same, but for the order of attachments. -/
instance decidableReattached : ∀ p q : Profile, Decidable (p.Reattached q)
  | ⟨name, attachments, modifier, items⟩, ⟨name', attachments', modifier', items'⟩ =>
    have := decidableItemsReattached items items'
    inferInstanceAs (Decidable (name = name' ∧ attachments.Perm attachments' ∧
      modifier = modifier' ∧ ItemsReattached items items'))

/-- Whether items are the same, but for the order of attachments. -/
instance decidableItemsReattached :
    ∀ items items' : List (Item Profile), Decidable (ItemsReattached items items')
  | [], [] => .isTrue trivial
  | .rule r :: items, .rule r' :: items' =>
    have := decidableItemsReattached items items'
    inferInstanceAs (Decidable (r = r' ∧ ItemsReattached items items'))
  | .profile p :: items, .profile p' :: items' =>
    have := decidableReattached p p'
    have := decidableItemsReattached items items'
    inferInstanceAs (Decidable (Reattached p p' ∧ ItemsReattached items items'))
  | [], .rule _ :: _ => .isFalse id
  | [], .profile _ :: _ => .isFalse id
  | .rule _ :: _, [] => .isFalse id
  | .profile _ :: _, [] => .isFalse id
  | .rule _ :: _, .profile _ :: _ => .isFalse id
  | .profile _ :: _, .rule _ :: _ => .isFalse id

end

mutual

theorem Reattached.symm : ∀ {p q : Profile}, p.Reattached q → q.Reattached p
  | ⟨_, _, _, _⟩, ⟨_, _, _, _⟩, h =>
    ⟨h.1.symm, h.2.1.symm, h.2.2.1.symm, ItemsReattached.symm h.2.2.2⟩

theorem ItemsReattached.symm : ∀ {items items' : List (Item Profile)},
    ItemsReattached items items' → ItemsReattached items' items
  | [], [], _ => trivial
  | .rule _ :: _, .rule _ :: _, h => ⟨h.1.symm, ItemsReattached.symm h.2⟩
  | .profile _ :: _, .profile _ :: _, h => ⟨Reattached.symm h.1, ItemsReattached.symm h.2⟩

end

variable {p q : Profile} {subject : String}

theorem Reattached.attachments (h : p.Reattached q) : p.attachments.Perm q.attachments := by
  cases p
  cases q
  exact h.2.1

theorem Reattached.items (h : p.Reattached q) : ItemsReattached p.items q.items := by
  cases p
  cases q
  exact h.2.2.2

theorem Reattached.isFor (h : p.Reattached q) : p.IsFor subject ↔ q.IsFor subject := by
  simp only [IsFor, Pattern.AnyMatches, h.attachments.mem_iff]

/-- At the place of a profile stands the same one with its attachments in another order. -/
theorem ItemsReattached.getElem? : ∀ {items items' : List (Item Profile)} {c : Profile} {i : Nat},
    ItemsReattached items items' → items[i]? = some (.profile c) →
      ∃ d, items'[i]? = some (.profile d) ∧ c.Reattached d
  | .profile _ :: _, .profile p' :: _, _, 0, h, hc =>
    ⟨p', rfl, Item.profile.inj (Option.some.inj hc) ▸ h.1⟩
  | .rule _ :: items, .rule _ :: _, _, i + 1, h, hc =>
    have ⟨d, hd, hcd⟩ := ItemsReattached.getElem? h.2 (show items[i]? = _ from hc)
    ⟨d, hd, hcd⟩
  | .profile _ :: items, .profile _ :: _, _, i + 1, h, hc =>
    have ⟨d, hd, hcd⟩ := ItemsReattached.getElem? h.2 (show items[i]? = _ from hc)
    ⟨d, hd, hcd⟩

/-! ## Profiles that filtering reaches -/

/-- Filtering comes to the second profile: it is the first one, or stands in it and all
profiles around it are for the subject. -/
inductive Reaches (subject : String) : Profile → Profile → Prop
  | self {p : Profile} : Reaches subject p p
  | inside {p q c : Profile} : p.IsFor subject → .profile c ∈ p.items → Reaches subject c q →
      Reaches subject p q

theorem reaches_iff : p.Reaches subject q ↔
    q = p ∨ p.IsFor subject ∧ ∃ c, .profile c ∈ p.items ∧ c.Reaches subject q := by
  refine ⟨fun h => ?_, fun h => ?_⟩
  · cases h with
    | self => exact .inl rfl
    | inside hfor hc h => exact .inr ⟨hfor, _, hc, h⟩
  · rcases h with rfl | ⟨hfor, c, hc, h⟩
    · exact .self
    · exact .inside hfor hc h

/-- What is reached is found by a walk, too. -/
theorem Reaches.mem_walk (h : p.Reaches subject q) : q ∈ p.walk := by
  induction h with
  | self => exact Profile.mem_walk.2 (.inl rfl)
  | inside _ hc _ ih => exact Profile.mem_walk.2 (.inr ⟨_, hc, ih⟩)

/-- The same places are reached when attachments stand in another order. -/
theorem Reaches.reattached {p' : Profile} (h : p.Reaches subject q) (hp : p.Reattached p') :
    ∃ q', p'.Reaches subject q' ∧ q.Reattached q' := by
  induction h generalizing p' with
  | self => exact ⟨p', .self, hp⟩
  | inside hfor hc _ ih =>
    obtain ⟨i, hi⟩ := List.mem_iff_getElem?.1 hc
    obtain ⟨d, hd, hcd⟩ := hp.items.getElem? hi
    obtain ⟨q', hreach, hq⟩ := ih hcd
    exact ⟨q', .inside (hp.isFor.1 hfor) (List.mem_of_getElem? hd) hreach, hq⟩

/-! ## When filtering answers -/

theorem answers_filterItems_iff {items : List (Item Profile)} :
    (filterItems subject items).Answers ↔
      ∀ c, .profile c ∈ items → (filter subject c).Answers := by
  induction items with
  | nil => exact iff_of_true ⟨[], rfl⟩ fun _ hc => absurd hc List.not_mem_nil
  | cons item items ih =>
    cases item with
    | rule r =>
      have rest : (filterItems subject (.rule r :: items)).Answers ↔
          (filterItems subject items).Answers := by
        rw [Answers, Answers, fresh_filterItems_rule]
        cases (filterItems subject items).fresh <;> simp [Except.map]
      rw [rest, ih]
      simp
    | profile p =>
      have parts : (filterItems subject (.profile p :: items)).Answers ↔
          (filter subject p).Answers ∧ (filterItems subject items).Answers := by
        rw [Answers, Answers, Answers, fresh_filterItems_profile]
        cases (filter subject p).fresh <;> cases (filterItems subject items).fresh <;>
          simp [Except.bind, Except.map]
      rw [parts, ih]
      simp

theorem answers_filter_cases : (filter subject p).Answers ↔
    (Cache.matchesAny p.attachments subject).Answers ∧
      (p.IsFor subject → (filterItems subject p.items).Answers) := by
  obtain ⟨name, attachments, modifier, items⟩ := p
  rw [Answers, Answers, Answers, fresh_filter]
  cases hfound : (Cache.matchesAny attachments subject).fresh with
  | error e => simp [Except.bind]
  | ok found =>
    have isFor := Cache.matchesAny_spec hfound
    rw [IsFor, ← isFor]
    cases found with
    | false => simp [Except.bind]
    | true => cases (filterItems subject items).fresh <;> simp [Except.bind, Except.map]

/-- Filtering answers when the attachments of all profiles that it reaches do. -/
theorem answers_filter_iff : (filter subject p).Answers ↔
    ∀ q, p.Reaches subject q → (Cache.matchesAny q.attachments subject).Answers := by
  induction p using inductionOn with
  | step p ih =>
    rw [answers_filter_cases, answers_filterItems_iff]
    simp only [reaches_iff (p := p)]
    constructor
    · rintro ⟨own, nested⟩ q (rfl | ⟨hfor, c, hc, hreach⟩)
      · exact own
      · exact (ih c hc).1 (nested hfor c hc) q hreach
    · intro h
      exact ⟨h p (.inl rfl), fun hfor c hc =>
        (ih c hc).2 fun q hreach => h q (.inr ⟨hfor, c, hc, hreach⟩)⟩

/-! ## Lists of profiles -/

/-- Filtering a list of profiles comes to the profile. -/
def ReachedIn (subject : String) (ps : List Profile) (q : Profile) : Prop :=
  ∃ p ∈ ps, p.Reaches subject q

theorem answers_filterAll_iff {ps : List Profile} : (filterAll subject ps).Answers ↔
    ∀ q, ReachedIn subject ps q → (Cache.matchesAny q.attachments subject).Answers := by
  have each : (filterAll subject ps).Answers ↔ ∀ p ∈ ps, (filter subject p).Answers := by
    induction ps with
    | nil => exact iff_of_true ⟨[], rfl⟩ fun _ hp => absurd hp List.not_mem_nil
    | cons p ps ih =>
      have parts : (filterAll subject (p :: ps)).Answers ↔
          (filter subject p).Answers ∧ (filterAll subject ps).Answers := by
        rw [Answers, Answers, Answers, fresh_filterAll_cons]
        cases (filter subject p).fresh <;> cases (filterAll subject ps).fresh <;>
          simp [Except.bind, Except.map]
      rw [parts, ih, List.forall_mem_cons]
  simp only [each, answers_filter_iff, ReachedIn, forall_exists_index, and_imp]
  exact ⟨fun h q p hp hreach => h p hp q hreach, fun h p hp q hreach => h q p hp hreach⟩

/-- Filtering reaches no mixed profile, or it reaches a broken one. -/
def OrderFree (subject : String) (ps : List Profile) : Prop :=
  (∀ q, ReachedIn subject ps q → ¬ IsMixed q.attachments subject) ∨
    ∃ q, ReachedIn subject ps q ∧ IsBroken q.attachments subject

/-- The profiles are the same one by one, but for the order of attachments. -/
def AllReattached (ps qs : List Profile) : Prop := List.Forall₂ Reattached ps qs

instance (ps qs : List Profile) : Decidable (AllReattached ps qs) :=
  inferInstanceAs (Decidable (List.Forall₂ Reattached ps qs))

variable {ps qs : List Profile}

theorem AllReattached.symm (h : AllReattached ps qs) : AllReattached qs ps :=
  List.Forall₂.flip (h.imp fun _ _ => Reattached.symm)

theorem ReachedIn.reattached {q : Profile} (h : ReachedIn subject ps q)
    (hps : AllReattached ps qs) : ∃ q', ReachedIn subject qs q' ∧ q.Reattached q' := by
  obtain ⟨p, hp, hreach⟩ := h
  obtain ⟨p', hp', hpp'⟩ : ∃ p' ∈ qs, p.Reattached p' := by
    induction hps with
    | nil => nomatch hp
    | cons first _ ih =>
      rcases List.mem_cons.1 hp with rfl | hp
      · exact ⟨_, List.mem_cons_self, first⟩
      · obtain ⟨p', hp', hpp'⟩ := ih hp
        exact ⟨p', List.mem_cons_of_mem _ hp', hpp'⟩
  obtain ⟨q', hreach', hq⟩ := hreach.reattached hpp'
  exact ⟨q', ⟨p', hp', hreach'⟩, hq⟩

/-- Where all attachments compile, no order decides. -/
theorem orderFree_of_allCompile (h : AllCompile (ps.flatMap walk)) : OrderFree subject ps := by
  refine .inl fun q ⟨p, hp, hreach⟩ ⟨_, source, hsource, hbad⟩ => ?_
  exact hbad (h q (List.mem_flatMap.2 ⟨p, hp, hreach.mem_walk⟩) source hsource)

theorem OrderFree.reattached (h : OrderFree subject ps) (hps : AllReattached ps qs) :
    OrderFree subject qs := by
  rcases h with unmixed | ⟨q, hreach, hbroken⟩
  · refine .inl fun q hreach => ?_
    obtain ⟨q', hreach', hq⟩ := hreach.reattached hps.symm
    rw [Pattern.isMixed_perm hq.attachments]
    exact unmixed q' hreach'
  · obtain ⟨q', hreach', hq⟩ := hreach.reattached hps
    exact .inr ⟨q', hreach', (Pattern.isBroken_perm hq.attachments).1 hbroken⟩

/-- Where no order decides, filtering that answers still does when attachments stand in another
order. -/
theorem answers_of_orderFree (hfree : OrderFree subject ps) (hps : AllReattached ps qs)
    (h : (filterAll subject ps).Answers) : (filterAll subject qs).Answers := by
  rw [answers_filterAll_iff] at h ⊢
  rcases hfree with unmixed | ⟨q, hreach, hbroken⟩
  · intro q hreach
    obtain ⟨q', hreach', hq⟩ := hreach.reattached hps.symm
    have compile := (Cache.answers_matchesAny_iff (unmixed q' hreach')).1 (h q' hreach')
    exact Cache.matchesAny_answers (fun a ha => compile a (hq.attachments.mem_iff.1 ha)) subject
  · exact absurd (h q hreach) (Cache.not_answers_of_isBroken hbroken)

/-! ## Orders that decide -/

mutual

/-- The profile with the attachments on every level in the order that a function gives. -/
def reorder (order : List String → List String) : Profile → Profile
  | ⟨name, attachments, modifier, items⟩ =>
    ⟨name, order attachments, modifier, reorderItems order items⟩

/-- The items with the attachments of profiles in the order that a function gives. -/
def reorderItems (order : List String → List String) : List (Item Profile) → List (Item Profile)
  | [] => []
  | .rule r :: items => .rule r :: reorderItems order items
  | .profile p :: items => .profile (reorder order p) :: reorderItems order items

end

variable {order : List String → List String}

theorem attachments_reorder (p : Profile) :
    (p.reorder order).attachments = order p.attachments := by
  cases p
  rw [reorder]

mutual

theorem reattached_reorder (hperm : ∀ as, (order as).Perm as) :
    ∀ p : Profile, p.Reattached (p.reorder order)
  | ⟨name, attachments, modifier, items⟩ => by
    rw [reorder]
    exact ⟨rfl, (hperm attachments).symm, rfl, itemsReattached_reorderItems hperm items⟩

theorem itemsReattached_reorderItems (hperm : ∀ as, (order as).Perm as) :
    ∀ items : List (Item Profile), ItemsReattached items (reorderItems order items)
  | [] => trivial
  | .rule _ :: items => ⟨rfl, itemsReattached_reorderItems hperm items⟩
  | .profile p :: items =>
    ⟨reattached_reorder hperm p, itemsReattached_reorderItems hperm items⟩

end

theorem reorderItems_eq_map (items : List (Item Profile)) :
    reorderItems order items = items.map (Item.change id (reorder order)) := by
  induction items with
  | nil => rfl
  | cons item items ih => cases item <;> simp [reorderItems, Item.change, ih]

theorem profile_mem_reorderItems {items : List (Item Profile)} :
    .profile q ∈ reorderItems order items ↔ ∃ c, .profile c ∈ items ∧ c.reorder order = q := by
  rw [reorderItems_eq_map, profile_mem_map_change]

/-- What is reached in a reordered profile is what was reached, reordered. -/
theorem reaches_reorder_iff (hperm : ∀ as, (order as).Perm as) :
    (p.reorder order).Reaches subject q ↔ ∃ c, p.Reaches subject c ∧ c.reorder order = q := by
  induction p using inductionOn with
  | step p ih =>
    have items : (p.reorder order).items = reorderItems order p.items := by
      cases p
      rw [reorder]
    rw [reaches_iff, ← (reattached_reorder hperm p).isFor, items]
    simp only [profile_mem_reorderItems, reaches_iff (p := p)]
    constructor
    · rintro (rfl | ⟨hfor, _, ⟨c, hc, rfl⟩, hreach⟩)
      · exact ⟨p, .inl rfl, rfl⟩
      · obtain ⟨d, hd, hq⟩ := (ih c hc).1 hreach
        exact ⟨d, .inr ⟨hfor, c, hc, hd⟩, hq⟩
    · rintro ⟨d, rfl | ⟨hfor, c, hc, hreach⟩, rfl⟩
      · exact .inl rfl
      · exact .inr ⟨hfor, _, ⟨c, hc, rfl⟩, (ih c hc).2 ⟨d, hreach, rfl⟩⟩

theorem reachedIn_reorder_iff (hperm : ∀ as, (order as).Perm as) :
    ReachedIn subject (ps.map (reorder order)) q ↔
      ∃ c, ReachedIn subject ps c ∧ c.reorder order = q := by
  simp only [ReachedIn, List.mem_map, exists_exists_and_eq_and, reaches_reorder_iff hperm]
  refine ⟨fun h => ?_, fun h => ?_⟩
  · obtain ⟨p, hp, c, hreach, hq⟩ := h
    exact ⟨c, ⟨p, hp, hreach⟩, hq⟩
  · obtain ⟨c, ⟨p, hp, hreach⟩, hq⟩ := h
    exact ⟨p, hp, c, hreach, hq⟩

theorem allReattached_reorder (hperm : ∀ as, (order as).Perm as) (ps : List Profile) :
    AllReattached ps (ps.map (reorder order)) := by
  refine List.forall₂_map_right_iff.2 (List.forall₂_same.2 fun p _ => ?_)
  exact reattached_reorder hperm p

/-- A list can be filtered in some order if no profile that is reached is broken. -/
theorem exists_answers (h : ∀ q, ReachedIn subject ps q → ¬ IsBroken q.attachments subject) :
    ∃ qs, AllReattached ps qs ∧ (filterAll subject qs).Answers := by
  refine ⟨_, allReattached_reorder (Cache.putFirst_perm fun source =>
    (Pattern.compile? source).toOption.any fun p => p.isMatch subject) ps, ?_⟩
  rw [answers_filterAll_iff]
  intro q hq
  obtain ⟨c, hreach, rfl⟩ := (reachedIn_reorder_iff (Cache.putFirst_perm _)).1 hq
  rw [attachments_reorder]
  by_cases hmatch : Pattern.AnyMatches c.attachments subject
  · exact Cache.answers_of_matching_first hmatch
  · have compile : ∀ source ∈ c.attachments, Compiles source := by
      intro source hsource
      by_contra hbad
      exact h c hreach ⟨hmatch, source, hsource, hbad⟩
    refine Cache.matchesAny_answers (fun source hsource => compile source ?_) subject
    exact (Cache.putFirst_perm _ _).mem_iff.1 hsource

/-- A list cannot be filtered in all orders if a profile that is reached has an attachment that
does not compile. -/
theorem exists_not_answers {source : String} (hreach : ReachedIn subject ps q)
    (hsource : source ∈ q.attachments) (hbad : ¬ Compiles source) :
    ∃ qs, AllReattached ps qs ∧ ¬ (filterAll subject qs).Answers := by
  refine ⟨_, allReattached_reorder (Cache.putFirst_perm fun source =>
    !decide (Compiles source)) ps, fun answers => ?_⟩
  rw [answers_filterAll_iff] at answers
  have first := answers _ ((reachedIn_reorder_iff (Cache.putFirst_perm _)).2 ⟨q, hreach, rfl⟩)
  rw [attachments_reorder] at first
  exact Cache.not_answers_of_bad_first hsource hbad first

/-- Where filtering answers in all orders or in none, it reaches no mixed profile or a broken
one. -/
theorem orderFree_of_answers (h : ∀ qs, AllReattached ps qs →
    ((filterAll subject ps).Answers ↔ (filterAll subject qs).Answers)) : OrderFree subject ps := by
  refine or_iff_not_imp_right.2 fun hsound q hreach hmixed => ?_
  obtain ⟨good, hgood, answers⟩ := exists_answers fun c hc hbroken => hsound ⟨c, hc, hbroken⟩
  obtain ⟨_, source, hsource, hbad⟩ := hmixed
  obtain ⟨bad, hbad, fails⟩ := exists_not_answers hreach hsource hbad
  exact fails ((h bad hbad).1 ((h good hgood).2 answers))

end Profile

end AccessPolicy
