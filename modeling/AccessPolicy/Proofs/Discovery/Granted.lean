import AccessPolicy.Proofs.Discovery.Observed
import AccessPolicy.Proofs.Store.Changes

/-!
# What a derived policy says

A derived policy has one profile for each subject, which is for that subject and
holds rules only (`Synthesis.DescribesSubject`). Its rules all allow, and on each
object that a rule names it lists what the snapshot shows the subject to do there,
no less and no more (`Synthesis.DescribesRules`). Both are plain of the profiles as
they are put together, and merging and sorting keep them
(`Synthesis.describes_of_synthesize`).
-/

namespace AccessPolicy

namespace Discovery

open Profile (Attaches Keeps)

/-! ## One profile -/

section Profiles

variable {grants : List Grant} {subject : String}

theorem mem_grantedObjects {object : ObjectKind × String} :
    object ∈ grantedObjects grants ↔ ∃ v, ⟨object.1, object.2, v⟩ ∈ grants := by
  obtain ⟨kind, name⟩ := object
  rw [grantedObjects, List.mem_mergeSort, mem_distinct, List.mem_map]
  refine ⟨fun ⟨g, hg, h⟩ => ?_, fun ⟨v, hv⟩ => ⟨_, hv, rfl⟩⟩
  obtain ⟨rfl, rfl⟩ := Prod.mk.inj h
  exact ⟨g.permission, hg⟩

theorem mem_permissions_ruleOf {object : ObjectKind × String} {v : Permission} :
    v ∈ (ruleOf grants object).permissions ↔ ⟨object.1, object.2, v⟩ ∈ grants := by
  rw [ruleOf, List.mem_filter, List.contains_iff_mem, and_iff_right (Permission.mem_all v)]

theorem rule_mem_profileOf {r : Rule} : .rule r ∈ (profileOf subject grants).items ↔
    ∃ object ∈ grantedObjects grants, ruleOf grants object = r := by
  simp [profileOf]

theorem profile_not_mem_profileOf {q : Profile} :
    .profile q ∉ (profileOf subject grants).items := by
  simp [profileOf]

/-- The rules of an observed profile name the objects that are granted, each on
the terms of its own. -/
theorem attaches_profileOf {P : Rule → Prop} {a : String} :
    Attaches (profileOf subject grants).items P a ↔
      ∃ kind, (kind, a) ∈ grantedObjects grants ∧ P (ruleOf grants (kind, a)) := by
  simp only [Attaches, rule_mem_profileOf]
  constructor
  · rintro ⟨r, ⟨⟨kind, name⟩, hobject, rfl⟩, hP, ha⟩
    obtain rfl : a = name := List.mem_singleton.1 ha
    exact ⟨kind, hobject, hP⟩
  · rintro ⟨kind, hobject, hP⟩
    exact ⟨_, ⟨(kind, a), hobject, rfl⟩, hP, List.mem_singleton.2 rfl⟩

end Profiles

namespace Synthesis

variable {config : Synthesis} {s : Snapshot} {store : Store} {p : Profile}

/-! ## From the observations to the policy -/

/-- The policy before the rules of its profiles are merged. -/
def observedStore (observations : List Observation) : Store :=
  ⟨[.ofProfiles (observedProfiles observations)]⟩

/-- The profile as it stands in a policy: in canonical form, and sorted once more
with its document. -/
def settled (p : Profile) : Profile := p.canonical.sort

theorem keeps_settled : Keeps settled := Profile.keeps_sort.comp Profile.keeps_canonical

@[simp] theorem name_settled (p : Profile) : (settled p).name = p.name := by
  rw [settled, Profile.name_sort, Profile.name_canonical]

theorem changes_policyOf (observations : List Observation) :
    Store.Changes settled (observedStore observations) (policyOf observations) := by
  have merged : Store.Changes Profile.canonical (observedStore observations)
      ⟨[.ofProfiles ((observedProfiles observations).map Profile.canonical)]⟩ := by
    apply Store.changes_documents
      (f := fun d => .ofProfiles (d.profiles.map Profile.canonical))
    exact fun _ _ => List.mem_map
  exact (Store.changes_sort _).comp merged

theorem mem_profiles_observedStore {observations : List Observation} :
    p ∈ (observedStore observations).profiles ↔
      ∃ subject ∈ observations.map (·.subject),
        profileOf subject (grantsOf observations subject) = p := by
  simp [observedStore, Store.profiles, Document.ofProfiles, observedProfiles, mem_distinct]

/-! ## What is said of a subject -/

/-- The profile is for the subject after which it is named, which the snapshot has,
and holds no other profile. -/
structure DescribesSubject (config : Synthesis) (s : Snapshot) (p : Profile) : Prop where
  subject : ∃ name ∈ s.names, config.subjectPrefix ++ name = p.name
  mem_attachments : ∀ a, a ∈ p.attachments ↔ a = p.name
  flat : ∀ q, .profile q ∉ p.items

/-- On every object that a rule of the profile names, it allows what the snapshot
shows the subject to do there, which is something, and nothing else. -/
structure DescribesRules (config : Synthesis) (s : Snapshot) (p : Profile) : Prop where
  allows : ∀ r ∈ p.rules, ∀ a ∈ r.attachments, r.qualifier = .allow
  shown : ∀ r ∈ p.rules, ∀ a ∈ r.attachments, ∀ v,
    v ∈ r.permissions ↔ config.Shows s p.name ⟨r.kind, a, v⟩
  someShown : ∀ r ∈ p.rules, ∀ a ∈ r.attachments, ∃ v, v ∈ r.permissions
  complete : ∀ kind a v, config.Shows s p.name ⟨kind, a, v⟩ →
    ∃ r ∈ p.rules, r.kind = kind ∧ v ∈ r.permissions ∧ a ∈ r.attachments

variable {observations : List Observation}

theorem describesSubject_settled (h : s.participants.mapM config.observe = .ok observations)
    {subject : String} (hsubject : subject ∈ observations.map (·.subject)) :
    DescribesSubject config s (settled (profileOf subject (grantsOf observations subject))) where
  subject := by
    rw [name_settled]
    exact (mem_subjects h subject).1 hsubject
  mem_attachments a := by
    rw [keeps_settled.mem_attachments, name_settled]
    exact List.mem_singleton
  flat q hq := by
    obtain ⟨c, hc, _⟩ := (keeps_settled.nested _ q).1 hq
    exact profile_not_mem_profileOf hc

theorem describesRules_settled (h : s.participants.mapM config.observe = .ok observations)
    (subject : String) :
    DescribesRules config s (settled (profileOf subject (grantsOf observations subject))) := by
  have name : (settled (profileOf subject (grantsOf observations subject))).name = subject :=
    name_settled _
  -- an attachment stands on the terms of the rule that was made for its object
  have attaches : ∀ {P : Rule → Prop}, Rule.OnTerms P → ∀ a,
      Attaches (settled (profileOf subject (grantsOf observations subject))).items P a ↔
        ∃ kind, (kind, a) ∈ grantedObjects (grantsOf observations subject) ∧
          P (ruleOf (grantsOf observations subject) (kind, a)) :=
    fun hP a => (keeps_settled.attaches _ hP a).trans attaches_profileOf
  have terms : ∀ r ∈ (settled (profileOf subject (grantsOf observations subject))).rules,
      ∀ a ∈ r.attachments, (r.kind, a) ∈ grantedObjects (grantsOf observations subject) ∧
        r.SameTerms (ruleOf (grantsOf observations subject) (r.kind, a)) := by
    intro r hr a ha
    obtain ⟨kind, hobject, hterms⟩ := (attaches r.onTerms_sameTerms a).1
      ⟨r, Profile.mem_rules.1 hr, .refl r, ha⟩
    obtain rfl : r.kind = kind := hterms.kind
    exact ⟨hobject, hterms⟩
  refine ⟨fun r hr a ha => (terms r hr a ha).2.qualifier, fun r hr a ha v => ?_,
    fun r hr a ha => ?_, fun kind a v hshows => ?_⟩
  · rw [(terms r hr a ha).2.permissions v, mem_permissions_ruleOf, mem_grantsOf h, name]
  · obtain ⟨v, hv⟩ := mem_grantedObjects.1 (terms r hr a ha).1
    exact ⟨v, ((terms r hr a ha).2.permissions v).2 (mem_permissions_ruleOf.2 hv)⟩
  · rw [name, ← mem_grantsOf h] at hshows
    have onTerms : Rule.OnTerms fun r => r.kind = kind ∧ v ∈ r.permissions :=
      fun t u htu ht => ⟨htu.kind ▸ ht.1, (htu.permissions v).1 ht.2⟩
    obtain ⟨r, hr, ⟨hkind, hv⟩, ha⟩ := (attaches onTerms a).2
      ⟨kind, mem_grantedObjects.2 ⟨v, hshows⟩, rfl, mem_permissions_ruleOf.2 hshows⟩
    exact ⟨r, Profile.mem_rules.2 hr, hkind, hv, ha⟩

/-- The profiles of a derived policy describe the subjects of the snapshot, and
every subject has one. -/
theorem describes_of_synthesize (h : config.synthesize s = .ok store) :
    (∀ p ∈ store.profiles, DescribesSubject config s p ∧ DescribesRules config s p) ∧
      ∀ name ∈ s.names, ∃ p ∈ store.profiles, p.name = config.subjectPrefix ++ name := by
  rw [synthesize_eq] at h
  obtain ⟨observations, hobs, rfl⟩ := exists_ok_of_map h
  have mem_profiles := changes_policyOf observations
  refine ⟨fun p hp => ?_, fun name hname => ?_⟩
  · obtain ⟨c, hc, rfl⟩ := (mem_profiles p).1 hp
    obtain ⟨subject, hsubject, rfl⟩ := mem_profiles_observedStore.1 hc
    exact ⟨describesSubject_settled hobs hsubject, describesRules_settled hobs subject⟩
  · have hsubject := (mem_subjects hobs _).2 ⟨name, hname, rfl⟩
    refine ⟨_, (mem_profiles _).2 ⟨_, mem_profiles_observedStore.2 ⟨_, hsubject, rfl⟩, rfl⟩, ?_⟩
    exact name_settled _

/-- A walk of a derived policy comes by its profiles only. -/
theorem mem_walk_of_synthesize (h : config.synthesize s = .ok store) :
    p ∈ store.walk ↔ p ∈ store.profiles := by
  rw [Store.mem_walk]
  refine ⟨fun ⟨q, hq, hp⟩ => ?_, fun hp => ⟨p, hp, Profile.mem_walk.2 (.inl rfl)⟩⟩
  rcases Profile.mem_walk.1 hp with rfl | ⟨c, hc, _⟩
  · exact hq
  · exact absurd hc (((describes_of_synthesize h).1 q hq).1.flat c)

theorem describes_of_mem_walk (h : config.synthesize s = .ok store) (hp : p ∈ store.walk) :
    DescribesSubject config s p ∧ DescribesRules config s p :=
  (describes_of_synthesize h).1 p ((mem_walk_of_synthesize h).1 hp)

end Synthesis

end Discovery

end AccessPolicy
