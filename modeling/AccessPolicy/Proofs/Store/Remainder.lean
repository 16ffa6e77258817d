import AccessPolicy.Proofs.Profile.Remainder
import AccessPolicy.Proofs.Store.Filter

/-!
# What filtering leaves of a store

Of a document filtering leaves the profiles that are for the subject, each without the
profiles inside that are not (`Document.remainder`), and of a store the remainders of its
documents, in their order, without those that have no profile (`Store.filter_eq_remainder`).
So a profile is left exactly where it and all profiles around it are for the subject, and
filtering again leaves everything (`Store.filter_keeps_attached`).
-/

namespace AccessPolicy

open Cached
open Profile (Occurrence Retains)

namespace Document

variable {subject : String} {d left : Document}

/-- The profiles of the document and those in them. -/
def occurrences (d : Document) : List Occurrence := d.profiles.flatMap Profile.occurrences

/-- The document with what is left of the profiles that are for the subject. -/
def remainder (subject : String) (d : Document) : Document :=
  { d with profiles := (d.profiles.filter (·.IsFor subject)).map (Profile.remainder subject) }

theorem filter_eq_remainder (h : (d.filter subject).fresh = .ok left) :
    left = d.remainder subject := by
  rw [fresh_filter] at h
  obtain ⟨profiles, hprofiles, rfl⟩ := exists_ok_of_map h
  rw [remainder, Profile.filterAll_eq_map hprofiles]

theorem filter_of_filter (h : (d.filter subject).fresh = .ok left) :
    (left.filter subject).fresh = .ok left := by
  rw [fresh_filter] at h
  obtain ⟨profiles, hprofiles, rfl⟩ := exists_ok_of_map h
  rw [fresh_filter, Profile.filterAll_of_filterAll hprofiles]
  rfl

/-- What is left has the occurrences that are kept. -/
theorem occurrences_remainder (subject : String) (d : Document) :
    (d.remainder subject).occurrences =
      (d.occurrences.filter (·.IsKept subject)).map (·.remainder subject) :=
  Profile.occurrences_map_remainder d.profiles

end Document

namespace Store

variable {subject : String} {s left : Store}

theorem mem_of_filterDocuments {ds kept : List Document}
    (h : (filterDocuments subject ds).fresh = .ok kept) :
    ∀ d ∈ ds, (d.filter subject).fresh = .ok (d.remainder subject) := by
  induction ds generalizing kept with
  | nil => exact fun _ hd => absurd hd List.not_mem_nil
  | cons d ds ih =>
    rw [fresh_filterDocuments_cons] at h
    obtain ⟨first, hfirst, h⟩ := exists_ok_of_bind h
    obtain ⟨others, hothers, _⟩ := exists_ok_of_map h
    exact List.forall_mem_cons.2 ⟨Document.filter_eq_remainder hfirst ▸ hfirst, ih hothers⟩

theorem filterDocuments_eq_remainder {ds kept : List Document}
    (h : (filterDocuments subject ds).fresh = .ok kept) :
    kept = (ds.map (Document.remainder subject)).filter fun d => !d.isEmpty := by
  induction ds generalizing kept with
  | nil =>
    rw [filterDocuments, fresh_pure] at h
    exact (Except.ok.inj h).symm
  | cons d ds ih =>
    rw [fresh_filterDocuments_cons] at h
    obtain ⟨first, hfirst, h⟩ := exists_ok_of_bind h
    obtain ⟨others, hothers, rfl⟩ := exists_ok_of_map h
    rw [List.map_cons, List.filter_cons, ← Document.filter_eq_remainder hfirst, ← ih hothers]
    cases first.isEmpty <;> rfl

theorem filterDocuments_of_filterDocuments {ds kept : List Document}
    (h : (filterDocuments subject ds).fresh = .ok kept) :
    (filterDocuments subject kept).fresh = .ok kept := by
  induction ds generalizing kept with
  | nil =>
    rw [filterDocuments, fresh_pure] at h
    obtain rfl := Except.ok.inj h
    rfl
  | cons d ds ih =>
    rw [fresh_filterDocuments_cons] at h
    obtain ⟨first, hfirst, h⟩ := exists_ok_of_bind h
    obtain ⟨others, hothers, rfl⟩ := exists_ok_of_map h
    have again := ih hothers
    by_cases hempty : first.isEmpty = true
    · rwa [if_pos hempty]
    · rw [if_neg hempty, fresh_filterDocuments_cons, Document.filter_of_filter hfirst, again]
      exact congrArg Except.ok (if_neg hempty)

/-- Filtering that answers leaves of every document its remainder, of every occurrence in it
those where the profile and all profiles around it are for the subject, and of each of these
profiles everything but the profiles inside that are not kept. Of a store it leaves the
remainders of the documents that still hold a profile. Filtering once more leaves all of it. -/
theorem filter_keeps_attached (subject : String) :
    (∀ d left : Document, (d.filter subject).fresh = .ok left →
      left = d.remainder subject ∧
      left.occurrences = (d.occurrences.filter (·.IsKept subject)).map (·.remainder subject) ∧
      (∀ o ∈ d.occurrences, o.IsKept subject →
        o.profile.Retains subject (o.profile.remainder subject)) ∧
      (left.filter subject).fresh = .ok left) ∧
    ∀ s left : Store, (s.filter subject).fresh = .ok left →
      (∀ d ∈ s.documents, (d.filter subject).fresh = .ok (d.remainder subject)) ∧
      left.documents = (s.documents.map (Document.remainder subject)).filter (!·.isEmpty) ∧
      (left.filter subject).fresh = .ok left := by
  refine ⟨fun d left h => ?_, fun s left h => ?_⟩
  · have remains := Document.filter_eq_remainder h
    refine ⟨remains, ?_, fun o _ hkept => Profile.retains_remainder hkept.1,
      Document.filter_of_filter h⟩
    rw [remains, Document.occurrences_remainder]
  · rw [fresh_filter] at h
    obtain ⟨documents, hdocuments, rfl⟩ := exists_ok_of_map h
    refine ⟨mem_of_filterDocuments hdocuments, filterDocuments_eq_remainder hdocuments, ?_⟩
    rw [fresh_filter, filterDocuments_of_filterDocuments hdocuments]
    rfl

/-- A profile with two others in it. The first of them is for arms only and holds one for all
robots and one whose pattern does not compile. -/
def patrol : Document :=
  .ofProfiles [{ name := "robot", attachments := ["/robot*"], items := [
    .rule { kind := .topic, qualifier := .allow, attachments := ["/log"], permissions := [.publish] },
    .profile { name := "arm", attachments := ["/*arm"], items := [
      .profile { name := "tool", attachments := ["/robot*"] },
      .profile { name := "broken", attachments := ["\x7b"] }] },
    .profile { name := "base", attachments := ["/robot_1"] },
    .rule { kind := .topic, qualifier := .deny, attachments := ["/log"], permissions := [.publish] }] }]

/-- The profile without the one for arms. -/
def patrolOfRobot : Document :=
  .ofProfiles [{ name := "robot", attachments := ["/robot*"], items := [
    .rule { kind := .topic, qualifier := .allow, attachments := ["/log"], permissions := [.publish] },
    .profile { name := "base", attachments := ["/robot_1"] },
    .rule { kind := .topic, qualifier := .deny, attachments := ["/log"], permissions := [.publish] }] }]

/-- The profile for arms goes with the one inside that matches and the one that does not compile,
and a document of which nothing is left goes with it. -/
theorem filter_keeps_attached_patrol :
    let hangar := Document.ofProfiles [{ name := "gate", attachments := ["/gate"] }]
    let s : Store := ⟨[hangar, patrol]⟩
    ((patrol.filter "/robot_1").fresh = .ok patrolOfRobot ∧
      patrolOfRobot = patrol.remainder "/robot_1" ∧
      patrolOfRobot.occurrences = (patrol.occurrences.filter (·.IsKept "/robot_1")).map
        (·.remainder "/robot_1") ∧
      (patrolOfRobot.filter "/robot_1").fresh = .ok patrolOfRobot) ∧
    (s.filter "/robot_1").fresh = .ok ⟨[patrolOfRobot]⟩ ∧
      [patrolOfRobot] = (s.documents.map (Document.remainder "/robot_1")).filter (!·.isEmpty) := by
  intro hangar s
  have answer : (patrol.filter "/robot_1").fresh = .ok patrolOfRobot := by decide +kernel
  have answers : (s.filter "/robot_1").fresh = .ok ⟨[patrolOfRobot]⟩ := by decide +kernel
  obtain ⟨remains, occurrences, _, again⟩ := (filter_keeps_attached "/robot_1").1 _ _ answer
  obtain ⟨_, documents, _⟩ := (filter_keeps_attached "/robot_1").2 _ _ answers
  exact ⟨⟨answer, remains, occurrences, again⟩, answers, documents⟩

end Store

end AccessPolicy
