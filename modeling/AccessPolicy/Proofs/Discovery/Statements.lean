import AccessPolicy.Proofs.Discovery.Granted
import AccessPolicy.Proofs.Profile.Stable

/-!
# The statements of a derived policy

A rule states of each of its attachments each of its permissions. What the profile of
a name states is what the endpoints recorded under the name are classified to, and each
object of a kind stands in one rule only (`Synthesis.States`). A derived policy is one
document with such a profile for each name, in the order of the names
(`Synthesis.states_of_synthesize`).

That no object stands in two rules is seen on their terms. A rule lists of each of its
objects what is recorded of it, so two rules of one kind with an object in common would
list the same, and merging leaves no two rules on the same terms.
-/

namespace AccessPolicy

open Profile (termsOf)

/-- Rules of one kind name no object in common and do not list the same permissions. -/
def Rule.Apart (r t : Rule) : Prop :=
  r.kind = t.kind →
    (∀ a ∈ r.attachments, a ∉ t.attachments) ∧ ¬ ∀ v, v ∈ r.permissions ↔ v ∈ t.permissions

namespace Profile

theorem map_terms_rules (p : Profile) : p.rules.map Rule.terms = termsOf p.items := by
  rw [termsOf, rules, List.map_filterMap]
  congr 1
  funext item
  cases item <;> rfl

/-- Sorting once more leaves the canonical form as it is. -/
theorem sort_canonical (p : Profile) : p.canonical.sort = p.canonical :=
  (isSorted_sort p.merge).sort_eq

/-- Rules of the canonical form repeat nothing. -/
theorem isDistinct_of_mem_canonical {p : Profile} {t : Rule} (ht : t ∈ p.canonical.rules) :
    t.IsDistinct := by
  obtain ⟨r, hr, rfl⟩ := exists_of_rule_mem_canonical (mem_rules.1 ht)
  exact hr.sort

end Profile

/-- Profiles with names of their own come in the strict order of their names. -/
theorem Document.pairwise_names_sort {d : Document} (h : (d.profiles.map (·.name)).Nodup) :
    d.sort.profiles.Pairwise fun p q => p.name < q.name := by
  have names : (d.profiles.map Profile.sort).map (·.name) = d.profiles.map (·.name) := by
    rw [List.map_map]
    exact List.map_congr_left fun p _ => p.name_sort
  have apart : d.sort.profiles.Pairwise fun p q => p.name ≠ q.name := by
    rw [← List.pairwise_map, ← List.Nodup]
    have perm := (List.mergeSort_perm (d.profiles.map Profile.sort)
      fun p q => decide (p.name ≤ q.name)).map (·.name)
    rw [names] at perm
    exact perm.nodup_iff.2 h
  have ordered : d.sort.profiles.Pairwise fun p q => p.name ≤ q.name :=
    pairwise_mergeSort_on Profile.name (d.profiles.map Profile.sort)
  exact ordered.imp₂ (fun p q hle hne => lt_of_le_of_ne hle hne) apart

namespace Discovery

namespace Synthesis

variable {config : Synthesis} {s : Snapshot} {store : Store} {p : Profile}

/-! ## What is recorded and what is stated -/

/-- An endpoint of a participant of the name is classified to the grant. -/
def Records (config : Synthesis) (s : Snapshot) (name : String) (g : Grant) : Prop :=
  ∃ q ∈ s.participants, q.name = name ∧
    ∃ r ∈ q.endpoints, config.classify r.1 r.2 = .ok (some g)

/-- The profile is for the name, states what is recorded under it and nothing else,
and states what it says of an object in one rule. -/
structure States (config : Synthesis) (s : Snapshot) (name : String) (p : Profile) : Prop where
  named : p.name = config.subjectPrefix ++ name
  attachments : p.attachments = [config.subjectPrefix ++ name]
  flat : p.nested = []
  allows : ∀ r ∈ p.rules, r.qualifier = .allow ∧ r.modifier = none
  stated : ∀ kind object v,
    (∃ r ∈ p.rules, r.kind = kind ∧ v ∈ r.permissions ∧ object ∈ r.attachments) ↔
      config.Records s name ⟨kind, object, v⟩
  distinct : ∀ r ∈ p.rules, r.IsDistinct
  apart : p.rules.Pairwise Rule.Apart

theorem shows_iff_records {name : String} {g : Grant} :
    config.Shows s (config.subjectPrefix ++ name) g ↔ config.Records s name g := by
  constructor
  · rintro ⟨other, r, hr, hsubject, hg⟩
    obtain ⟨q, hq, hname, hr⟩ := Snapshot.mem_records.1 hr
    have same : other = name := by
      rw [String.ext_iff, String.toList_append, String.toList_append] at hsubject
      exact String.ext (List.append_cancel_left hsubject)
    exact ⟨q, hq, hname.trans same, r, hr, hg⟩
  · rintro ⟨q, hq, hname, r, hr, hg⟩
    exact ⟨name, r, Snapshot.mem_records.2 ⟨q, hq, hname, hr⟩, rfl, hg⟩

/-! ## One profile -/

theorem settled_eq (p : Profile) : settled p = p.canonical := p.sort_canonical

/-- Merging and sorting leave allowing rules without a modifier only. -/
theorem allows_settled {subject : String} {grants : List Grant} {r : Rule}
    (hr : r ∈ (settled (profileOf subject grants)).rules) :
    r.qualifier = .allow ∧ r.modifier = none := by
  rw [settled_eq, Profile.mem_rules] at hr
  -- the terms of the rule are those of a rule that was made for an object
  have hterms := Profile.mem_termsOf_canonical.1 (Profile.mem_termsOf.2 ⟨r, hr, rfl⟩)
  obtain ⟨t, ht, hrt⟩ := Profile.mem_termsOf.1 hterms
  obtain ⟨object, _, rfl⟩ := rule_mem_profileOf.1 ht
  have same := Rule.terms_eq_iff.1 hrt
  exact ⟨same.qualifier.symm, same.modifier.symm⟩

/-- Rules on terms of their own stand apart where each lists of its objects all that is
shown of them. -/
theorem pairwise_apart (hterms : (termsOf p.items).Nodup) (h : DescribesRules config s p)
    (hallows : ∀ r ∈ p.rules, r.qualifier = .allow ∧ r.modifier = none) :
    p.rules.Pairwise Rule.Apart := by
  rw [← p.map_terms_rules, List.Nodup, List.pairwise_map] at hterms
  refine hterms.imp_of_mem fun {r t} hr ht hne hkind => ?_
  have differ : ¬ ∀ v, v ∈ r.permissions ↔ v ∈ t.permissions := by
    intro hv
    apply hne
    obtain ⟨hrq, hrm⟩ := hallows r hr
    obtain ⟨htq, htm⟩ := hallows t ht
    exact Rule.terms_eq_iff.2 ⟨hkind, hrq.trans htq.symm, hrm.trans htm.symm, hv⟩
  refine ⟨fun a har hat => differ fun v => ?_, differ⟩
  rw [h.shown r hr a har v, h.shown t ht a hat v, hkind]

theorem attachments_settled (subject : String) (grants : List Grant) :
    (settled (profileOf subject grants)).attachments = [subject] := by
  rw [settled_eq]
  exact sortTexts_eq_self (List.pairwise_singleton _ subject)

theorem DescribesRules.stated_iff (h : DescribesRules config s p) (kind : ObjectKind)
    (object : String) (v : Permission) :
    (∃ r ∈ p.rules, r.kind = kind ∧ v ∈ r.permissions ∧ object ∈ r.attachments) ↔
      config.Shows s p.name ⟨kind, object, v⟩ := by
  refine ⟨fun ⟨r, hr, hkind, hv, ha⟩ => ?_, h.complete kind object v⟩
  rw [← hkind]
  exact (h.shown r hr object ha v).1 hv

/-- The profile of a subject states what is recorded under its name. -/
theorem states_settled {observations : List Observation}
    (h : s.participants.mapM config.observe = .ok observations) {name : String}
    (hname : name ∈ s.names) :
    config.States s name (settled (profileOf (config.subjectPrefix ++ name)
      (grantsOf observations (config.subjectPrefix ++ name)))) := by
  have hsubject := (mem_subjects h _).2 ⟨name, hname, rfl⟩
  have holds := describesSubject_settled h hsubject
  have rules := describesRules_settled h (config.subjectPrefix ++ name)
  have named := name_settled (profileOf (config.subjectPrefix ++ name)
    (grantsOf observations (config.subjectPrefix ++ name)))
  refine ⟨named, attachments_settled _ _, ?_, fun _ => allows_settled, fun kind object v => ?_,
    fun r hr => ?_, ?_⟩
  · rw [Profile.nested, List.filterMap_eq_nil_iff]
    intro item hitem
    cases item with
    | rule r => rfl
    | profile q => exact absurd hitem (holds.flat q)
  · rw [rules.stated_iff, named]
    exact shows_iff_records
  · rw [settled_eq] at hr
    exact Profile.isDistinct_of_mem_canonical hr
  · refine pairwise_apart ?_ rules fun _ => allows_settled
    rw [settled_eq]
    exact Profile.nodup_termsOf_canonical _

/-! ## The policy -/

/-- Each subject is observed once, so the profiles come in the strict order of their
names. -/
theorem ordered_policyOf (observations : List Observation) :
    ∃ d, policyOf observations = ⟨[d]⟩ ∧ (policyOf observations).profiles = d.profiles ∧
      d.profiles.Pairwise fun p q => p.name < q.name := by
  have names : ((observedProfiles observations).map Profile.canonical).map (·.name) =
      distinct (observations.map (·.subject)) := by
    rw [observedProfiles, List.map_map, List.map_map]
    exact List.map_id'' (fun subject => Profile.name_canonical _) _
  refine ⟨_, rfl, List.flatMap_singleton _ _, Document.pairwise_names_sort ?_⟩
  show (((observedProfiles observations).map Profile.canonical).map (·.name)).Nodup
  rw [names]
  exact nodup_distinct _

theorem mem_profiles_policyOf {observations : List Observation}
    (h : s.participants.mapM config.observe = .ok observations) :
    p ∈ (policyOf observations).profiles ↔ ∃ name ∈ s.names,
      settled (profileOf (config.subjectPrefix ++ name)
        (grantsOf observations (config.subjectPrefix ++ name))) = p := by
  rw [changes_policyOf observations p]
  constructor
  · rintro ⟨c, hc, rfl⟩
    obtain ⟨subject, hsubject, rfl⟩ := mem_profiles_observedStore.1 hc
    obtain ⟨name, hname, rfl⟩ := (mem_subjects h subject).1 hsubject
    exact ⟨name, hname, rfl⟩
  · rintro ⟨name, hname, rfl⟩
    have hsubject := (mem_subjects h _).2 ⟨name, hname, rfl⟩
    exact ⟨_, mem_profiles_observedStore.2 ⟨_, hsubject, rfl⟩, rfl⟩

/-- A derived policy is one document, with one profile for each name of a participant
in the order of the names, and each profile states what is recorded under its name. -/
theorem states_of_synthesize (h : config.synthesize s = .ok store) :
    ∃ d, store = ⟨[d]⟩ ∧ d.profiles.Pairwise (fun p q => p.name < q.name) ∧
      (∀ p ∈ d.profiles, ∃ name ∈ s.names, config.States s name p) ∧
      ∀ name ∈ s.names, ∃ p ∈ d.profiles, config.States s name p := by
  rw [synthesize_eq] at h
  obtain ⟨observations, hobs, rfl⟩ := exists_ok_of_map h
  obtain ⟨d, hd, hprofiles, ordered⟩ := ordered_policyOf observations
  refine ⟨d, hd, ordered, fun p hp => ?_, fun name hname => ?_⟩
  · rw [← hprofiles, mem_profiles_policyOf hobs] at hp
    obtain ⟨name, hname, rfl⟩ := hp
    exact ⟨name, hname, states_settled hobs hname⟩
  · refine ⟨_, ?_, states_settled hobs hname⟩
    rw [← hprofiles]
    exact (mem_profiles_policyOf hobs).2 ⟨name, hname, rfl⟩

/-- The relay that is seen in two parts has one profile, which states what was seen of
either part. -/
theorem states_of_synthesize_relay : ∃ d, Synthesis.synthesize {} relaySplit = .ok ⟨[d]⟩ ∧
    d.profiles.Pairwise (fun p q => p.name < q.name) ∧
    ∃ p ∈ d.profiles, Synthesis.States {} relaySplit "relay" p ∧
      (∃ r ∈ p.rules, r.kind = .rosTopic ∧ .rosSubscribe ∈ r.permissions ∧
        "/chatter" ∈ r.attachments) ∧
      ∃ r ∈ p.rules, r.kind = .rosTopic ∧ .rosPublish ∈ r.permissions ∧
        "/chatter" ∈ r.attachments := by
  obtain ⟨store, hstore⟩ := exists_synthesize.2 fun r (_ : r ∈ relaySplit.records) =>
    @exists_classify {} rfl r.2.1 r.2.2
  obtain ⟨d, rfl, ordered, _, named⟩ := states_of_synthesize hstore
  obtain ⟨p, hp, states⟩ := named "relay" (by decide)
  have shown : ∀ v ∈ [Permission.rosSubscribe, .rosPublish],
      Synthesis.Shows {} relaySplit ("/" ++ "relay") ⟨.rosTopic, "/chatter", v⟩ := by decide
  have stated := fun v hv =>
    (states.stated .rosTopic "/chatter" v).2 (shows_iff_records.1 (shown v hv))
  exact ⟨d, hstore, ordered, p, hp, states, stated _ (by decide), stated _ (by decide)⟩

end Synthesis

end Discovery

end AccessPolicy
