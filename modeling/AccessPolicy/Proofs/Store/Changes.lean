import AccessPolicy.Proofs.Profile.Keeps
import AccessPolicy.Proofs.Store.Filter

/-!
# Changing the profiles of a store

Merging and sorting a store changes its profiles one by one, and sorting also
puts them in another order (`Store.Changes`). Where the change keeps what a
profile says, all profiles of the store are kept, each changed, and all patterns
still compile (`Store.Changes.compiles`).
-/

namespace AccessPolicy

open Profile

namespace Store

variable {s t u : Store} {change change' : Profile → Profile}

theorem mem_profiles {p : Profile} : p ∈ s.profiles ↔ ∃ d ∈ s.documents, p ∈ d.profiles :=
  List.mem_flatMap

theorem mem_walk {q : Profile} : q ∈ s.walk ↔ ∃ p ∈ s.profiles, q ∈ p.walk := by
  simp only [walk, Document.walk, List.mem_flatMap, mem_profiles]
  refine ⟨fun h => ?_, fun h => ?_⟩
  · obtain ⟨d, hd, p, hp, hq⟩ := h
    exact ⟨p, ⟨d, hd, hp⟩, hq⟩
  · obtain ⟨p, ⟨d, hd, hp⟩, hq⟩ := h
    exact ⟨d, hd, p, hp, hq⟩

/-- The profiles of the second store are those of the first one, each changed. -/
def Changes (change : Profile → Profile) (s t : Store) : Prop :=
  ∀ q, q ∈ t.profiles ↔ ∃ p ∈ s.profiles, change p = q

/-- A change of every document that changes its profiles changes those of the
store. -/
theorem changes_documents {f : Document → Document}
    (hf : ∀ d q, q ∈ (f d).profiles ↔ ∃ p ∈ d.profiles, change p = q) (s : Store) :
    Changes change s ⟨s.documents.map f⟩ := by
  intro q
  simp only [mem_profiles]
  refine ⟨fun h => ?_, fun h => ?_⟩
  · obtain ⟨d', hd', hq⟩ := h
    obtain ⟨d, hd, rfl⟩ := List.mem_map.1 hd'
    obtain ⟨p, hp, hq⟩ := (hf d q).1 hq
    exact ⟨p, ⟨d, hd, hp⟩, hq⟩
  · obtain ⟨p, ⟨d, hd, hp⟩, hq⟩ := h
    exact ⟨f d, List.mem_map_of_mem hd, (hf d q).2 ⟨p, hp, hq⟩⟩

theorem changes_merge (s : Store) : Changes Profile.merge s s.merge :=
  changes_documents (fun _ _ => List.mem_map) s

theorem changes_sort (s : Store) : Changes Profile.sort s s.sort :=
  changes_documents (fun _ _ => List.mem_mergeSort.trans List.mem_map) s

theorem Changes.comp (h' : Changes change' t u) (h : Changes change s t) :
    Changes (fun p => change' (change p)) s u := by
  intro q
  rw [h' q]
  refine ⟨fun hex => ?_, fun hex => ?_⟩
  · obtain ⟨p, hp, hq⟩ := hex
    obtain ⟨c, hc, rfl⟩ := (h p).1 hp
    exact ⟨c, hc, hq⟩
  · obtain ⟨c, hc, hq⟩ := hex
    exact ⟨change c, (h _).2 ⟨c, hc, rfl⟩, hq⟩

/-- Also the profiles inside are those of the first store, each changed. -/
theorem Changes.mem_walk (h : Changes change s t) (hk : Keeps change) (q : Profile) :
    q ∈ t.walk ↔ ∃ c ∈ s.walk, change c = q := by
  simp only [Store.mem_walk]
  refine ⟨fun hex => ?_, fun hex => ?_⟩
  · obtain ⟨d, hd, hq⟩ := hex
    obtain ⟨p, hp, rfl⟩ := (h d).1 hd
    obtain ⟨c, hc, hq⟩ := (hk.mem_walk p q).1 hq
    exact ⟨c, ⟨p, hp, hc⟩, hq⟩
  · obtain ⟨c, ⟨p, hp, hc⟩, hq⟩ := hex
    exact ⟨change p, (h _).2 ⟨p, hp, rfl⟩, (hk.mem_walk p q).2 ⟨c, hc, hq⟩⟩

/-- A property of some profile in the stores that the change keeps. -/
theorem Changes.exists_walk (h : Changes change s t) (hk : Keeps change) {Q : Profile → Prop}
    (hQ : ∀ p, Q (change p) ↔ Q p) : (∃ p ∈ t.walk, Q p) ↔ ∃ p ∈ s.walk, Q p := by
  refine ⟨fun hex => ?_, fun hex => ?_⟩
  · obtain ⟨q, hq, hQq⟩ := hex
    obtain ⟨p, hp, rfl⟩ := (h.mem_walk hk q).1 hq
    exact ⟨p, hp, (hQ p).1 hQq⟩
  · obtain ⟨p, hp, hQp⟩ := hex
    exact ⟨change p, (h.mem_walk hk _).2 ⟨p, hp, rfl⟩, (hQ p).2 hQp⟩

/-- A rule with the property governs the subject and has the attachment. -/
def Grants (s : Store) (subject : String) (P : Rule → Prop) (a : String) : Prop :=
  ∃ r, s.Governs subject r ∧ P r ∧ a ∈ r.attachments

theorem grants_iff {subject a : String} {P : Rule → Prop} :
    s.Grants subject P a ↔ ∃ p ∈ s.profiles, p.Grants subject P a := by
  refine ⟨fun hex => ?_, fun hex => ?_⟩
  · obtain ⟨r, ⟨p, hp, hr⟩, h⟩ := hex
    exact ⟨p, hp, r, hr, h⟩
  · obtain ⟨p, hp, r, hr, h⟩ := hex
    exact ⟨r, ⟨p, hp, hr⟩, h⟩

theorem Changes.grants (h : Changes change s t) (hk : Keeps change) {P : Rule → Prop}
    (hP : Rule.OnTerms P) (subject a : String) :
    t.Grants subject P a ↔ s.Grants subject P a := by
  rw [grants_iff, grants_iff]
  refine ⟨fun hex => ?_, fun hex => ?_⟩
  · obtain ⟨q, hq, hgrants⟩ := hex
    obtain ⟨p, hp, rfl⟩ := (h q).1 hq
    exact ⟨p, hp, (hk.grants hP p).1 hgrants⟩
  · obtain ⟨p, hp, hgrants⟩ := hex
    exact ⟨change p, (h _).2 ⟨p, hp, rfl⟩, (hk.grants hP p).2 hgrants⟩

/-! ## Patterns that compile -/

/-- All attachments of profiles and of rules in the store compile. -/
structure Compiles (s : Store) : Prop where
  subjects : AllCompile s.walk
  objects : ∀ p ∈ s.walk, ∀ r ∈ p.rules, ∀ source ∈ r.attachments, Pattern.Compiles source

theorem compiles_iff : s.Compiles ↔ AllCompile s.walk ∧
    ∀ p ∈ s.walk, ∀ r ∈ p.rules, ∀ source ∈ r.attachments, Pattern.Compiles source :=
  ⟨fun h => ⟨h.subjects, h.objects⟩, fun h => ⟨h.1, h.2⟩⟩

instance (s : Store) : Decidable s.Compiles := decidable_of_iff _ compiles_iff.symm

theorem Changes.compiles (h : Changes change s t) (hk : Keeps change) (hs : s.Compiles) :
    t.Compiles where
  subjects q hq source hsource := by
    obtain ⟨p, hp, rfl⟩ := (h.mem_walk hk q).1 hq
    exact hs.subjects p hp source ((hk.mem_attachments p source).1 hsource)
  objects q hq r hr source hsource := by
    obtain ⟨p, hp, rfl⟩ := (h.mem_walk hk q).1 hq
    have always : Rule.OnTerms fun _ => True := fun _ _ _ _ => trivial
    have there : Attaches (change p).items (fun _ => True) source :=
      ⟨r, mem_rules.1 hr, trivial, hsource⟩
    obtain ⟨r', hr', _, hsource'⟩ := (hk.attaches p always source).1 there
    exact hs.objects p hp r' (mem_rules.2 hr') source hsource'

/-- A rule that governs a subject stands in one of the profiles of a walk. -/
theorem exists_walk_of_governs {subject : String} {r : Rule} (h : s.Governs subject r) :
    ∃ q ∈ s.walk, r ∈ q.rules := by
  obtain ⟨p, hp, h⟩ := h
  obtain ⟨q, hq, hr⟩ := h.exists_walk
  exact ⟨q, mem_walk.2 ⟨p, hp, hq⟩, hr⟩

end Store

end AccessPolicy
