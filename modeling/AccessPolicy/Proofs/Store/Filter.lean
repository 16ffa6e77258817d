import AccessPolicy.Proofs.Profile.Governs
import AccessPolicy.Store.Basic

/-!
# Filtering stores

What holds of the profiles of a store holds of the store: filtering it leaves
the rules that govern the subject in one of its profiles
(`Store.mem_rulesOf_filter`). Documents that are left without profiles are
dropped, and take no rule with them.
-/

namespace AccessPolicy

open Cached

namespace Document

theorem transparent_filter (subject : String) (d : Document) : (d.filter subject).Transparent :=
  transparent_bind (Profile.transparent_filterAll subject d.profiles) fun _ => transparent_pure _

theorem fresh_filter (subject : String) (d : Document) : (d.filter subject).fresh =
    (Profile.filterAll subject d.profiles).fresh.map fun profiles => { d with profiles } :=
  fresh_map

end Document

namespace Store

theorem transparent_filterDocuments (subject : String) (ds : List Document) :
    (filterDocuments subject ds).Transparent := by
  induction ds with
  | nil => exact transparent_pure []
  | cons d ds ih =>
    exact transparent_bind (Document.transparent_filter subject d) fun _ =>
      transparent_bind ih fun _ => transparent_pure _

theorem transparent_filter (subject : String) (s : Store) : (s.filter subject).Transparent :=
  transparent_bind (transparent_filterDocuments subject s.documents) fun _ => transparent_pure _

theorem fresh_filter (subject : String) (s : Store) : (s.filter subject).fresh =
    (filterDocuments subject s.documents).fresh.map Store.mk :=
  fresh_map

theorem fresh_filterDocuments_cons (subject : String) (d : Document) (ds : List Document) :
    (filterDocuments subject (d :: ds)).fresh =
      (d.filter subject).fresh.bind fun first =>
        (filterDocuments subject ds).fresh.map fun kept =>
          if first.isEmpty then kept else first :: kept := by
  rw [filterDocuments, fresh_bind fun _ =>
    transparent_bind (transparent_filterDocuments subject ds) fun _ => transparent_pure _]
  congr
  funext first
  exact fresh_map

/-- A document without profiles has no rules, so it makes no difference whether
it is kept. -/
theorem flatMap_rulesOf_kept (k : ObjectKind) (first : Document) (kept : List Document) :
    (if first.isEmpty then kept else first :: kept).flatMap (fun d => d.rulesOf k) =
      first.rulesOf k ++ kept.flatMap fun d => d.rulesOf k := by
  by_cases h : first.isEmpty = true
  · have none : first.profiles = [] := List.isEmpty_iff.1 h
    rw [if_pos h, Document.rulesOf, none]
    rfl
  · rw [if_neg h, List.flatMap_cons]

/-- The rule governs the subject in one of the profiles of the store. -/
def Governs (s : Store) (subject : String) (r : Rule) : Prop :=
  ∃ p ∈ s.profiles, p.Governs subject r

theorem mem_rulesOf_filterDocuments {subject : String} {ds kept : List Document}
    (h : (filterDocuments subject ds).fresh = .ok kept) (k : ObjectKind) (r : Rule) :
    r ∈ kept.flatMap (fun d => d.rulesOf k) ↔
      r.kind = k ∧ ∃ p ∈ ds.flatMap (·.profiles), p.Governs subject r := by
  induction ds generalizing kept with
  | nil =>
    rw [filterDocuments, fresh_pure] at h
    injection h with h
    simp [← h]
  | cons d ds ih =>
    rw [fresh_filterDocuments_cons] at h
    obtain ⟨first, hfirst, h⟩ := exists_ok_of_bind h
    obtain ⟨left, hleft, rfl⟩ := exists_ok_of_map h
    rw [Document.fresh_filter] at hfirst
    obtain ⟨profiles, hprofiles, rfl⟩ := exists_ok_of_map hfirst
    rw [flatMap_rulesOf_kept, List.mem_append, ih hleft, Document.rulesOf,
      Profile.mem_rulesOf_filterAll hprofiles, ← and_or_left, List.flatMap_cons]
    simp only [List.mem_append, or_and_right, exists_or]

/-- The rules of a kind that are left for a subject are those that govern it. -/
theorem mem_rulesOf_filter {s policy : Store} {subject : String}
    (h : (s.filter subject).fresh = .ok policy) (k : ObjectKind) (r : Rule) :
    r ∈ policy.rulesOf k ↔ r.kind = k ∧ s.Governs subject r := by
  rw [fresh_filter] at h
  obtain ⟨documents, hdocuments, rfl⟩ := exists_ok_of_map h
  exact mem_rulesOf_filterDocuments hdocuments k r

/-- A store whose profiles all have attachments that compile can be filtered. -/
theorem filter_answers {s : Store} (h : Profile.AllCompile s.walk) (subject : String) :
    ∃ policy, (s.filter subject).fresh = .ok policy := by
  have documents : ∀ ds : List Document, Profile.AllCompile (ds.flatMap Document.walk) →
      ∃ kept, (filterDocuments subject ds).fresh = .ok kept := by
    intro ds hds
    induction ds with
    | nil => exact ⟨[], rfl⟩
    | cons d ds ih =>
      rw [List.flatMap_cons] at hds
      obtain ⟨profiles, hprofiles⟩ := Profile.filterAll_answers hds.left subject
      obtain ⟨kept, hkept⟩ := ih hds.right
      rw [fresh_filterDocuments_cons, Document.fresh_filter, hprofiles, hkept]
      exact ⟨_, rfl⟩
  obtain ⟨kept, hkept⟩ := documents s.documents h
  exact ⟨⟨kept⟩, by rw [fresh_filter, hkept]; rfl⟩

end Store

end AccessPolicy
