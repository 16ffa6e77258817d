import AccessPolicy.Discovery.Synthesis
import AccessPolicy.Proofs.Collection.Answers
import AccessPolicy.Proofs.Collection.Sorted
import AccessPolicy.Proofs.Profile.Keeps
import Mathlib.Tactic.ByContra

/-!
# What a snapshot shows

A snapshot is read for two things only: which names its participants have, and
which endpoints are recorded under a name (`Snapshot.names`, `Snapshot.records`).
A policy is derived unless the code of a record is refused
(`Synthesis.exists_synthesize`), and then it is put together from the subjects
and from what the snapshot shows of each (`Synthesis.Shows`). How the records are
spread over participants, in what order they come and how often leaves no trace
in it (`Synthesis.synthesize_of_sameRecords`).
-/

namespace AccessPolicy

namespace Discovery

/-! ## Names and records -/

/-- The names of the participants. -/
def Snapshot.names (s : Snapshot) : List String := s.participants.map (·.name)

/-- All endpoints, each under the name of its participant. -/
def Snapshot.records (s : Snapshot) : List (String × Direction × Endpoint) :=
  s.participants.flatMap fun p => p.endpoints.map fun r => (p.name, r)

theorem Snapshot.mem_names {s : Snapshot} {name : String} :
    name ∈ s.names ↔ ∃ p ∈ s.participants, p.name = name :=
  List.mem_map

theorem Snapshot.mem_records {s : Snapshot} {name : String} {r : Direction × Endpoint} :
    (name, r) ∈ s.records ↔ ∃ p ∈ s.participants, p.name = name ∧ r ∈ p.endpoints := by
  simp only [records, List.mem_flatMap, List.mem_map, Prod.mk.injEq]
  refine exists_congr fun p => and_congr_right fun _ => ?_
  exact ⟨fun ⟨_, hr, hname, h⟩ => ⟨hname, h ▸ hr⟩, fun ⟨hname, hr⟩ => ⟨r, hr, hname, rfl⟩⟩

/-- The snapshots have the same names, and the same endpoints under each name. -/
structure Snapshot.SameRecords (s t : Snapshot) : Prop where
  names : ∀ name, name ∈ s.names ↔ name ∈ t.names
  records : ∀ r, r ∈ s.records ↔ r ∈ t.records

instance (s t : Snapshot) : Decidable (s.SameRecords t) :=
  decidable_of_iff ((s.names ⊆ t.names ∧ t.names ⊆ s.names) ∧
      (s.records ⊆ t.records ∧ t.records ⊆ s.records)) <| by
    refine ⟨fun ⟨⟨hn, hn'⟩, hr, hr'⟩ => ?_, fun ⟨hn, hr⟩ => ?_⟩
    · exact ⟨fun _ => ⟨(hn ·), (hn' ·)⟩, fun _ => ⟨(hr ·), (hr' ·)⟩⟩
    · exact ⟨⟨fun _ => (hn _).1, fun _ => (hn _).2⟩, fun _ => (hr _).1, fun _ => (hr _).2⟩

namespace Synthesis

variable {config : Synthesis} {s t : Snapshot}

/-- The snapshot shows a subject to use what the grant says. -/
def Shows (config : Synthesis) (s : Snapshot) (subject : String) (g : Grant) : Prop :=
  ∃ name r, (name, r) ∈ s.records ∧ config.subjectPrefix ++ name = subject ∧
    config.classify r.1 r.2 = .ok (some g)

instance (config : Synthesis) (s : Snapshot) (subject : String) (g : Grant) :
    Decidable (config.Shows s subject g) :=
  decidable_of_iff (∃ r ∈ s.records, config.subjectPrefix ++ r.1 = subject ∧
      (config.classify r.2.1 r.2.2).toOption = some (some g)) <| by
    refine ⟨fun ⟨r, hr, hsubject, hg⟩ => ⟨r.1, r.2, hr, hsubject, ok_of_toOption hg⟩,
      fun ⟨name, r, hr, hsubject, hg⟩ => ⟨(name, r), hr, hsubject, ?_⟩⟩
    rw [hg]
    rfl

/-! ## Observations -/

theorem observe_eq (config : Synthesis) (p : Participant) : config.observe p =
    (p.endpoints.mapM fun r => config.classify r.1 r.2).map fun grants =>
      ⟨config.subjectPrefix ++ p.name, grants.filterMap id⟩ := by
  show (p.endpoints.mapM fun r => config.classify r.1 r.2) >>= _ = _
  cases p.endpoints.mapM fun r => config.classify r.1 r.2 <;> rfl

theorem exists_observe {p : Participant} : (∃ o, config.observe p = .ok o) ↔
    ∀ r ∈ p.endpoints, ∃ g, config.classify r.1 r.2 = .ok g := by
  rw [← exists_mapM_ok, observe_eq]
  refine ⟨fun ⟨o, h⟩ => ?_, fun ⟨grants, h⟩ => ⟨_, by rw [h]; rfl⟩⟩
  obtain ⟨grants, hgrants, _⟩ := exists_ok_of_map h
  exact ⟨grants, hgrants⟩

theorem of_observe {p : Participant} {o : Observation} (h : config.observe p = .ok o) :
    o.subject = config.subjectPrefix ++ p.name ∧ ∀ g, g ∈ o.grants ↔
      ∃ r ∈ p.endpoints, config.classify r.1 r.2 = .ok (some g) := by
  rw [observe_eq] at h
  obtain ⟨grants, hgrants, rfl⟩ := exists_ok_of_map h
  refine ⟨rfl, fun g => ?_⟩
  rw [← mem_of_mapM_ok hgrants]
  simp

variable {observations observations' : List Observation}

theorem mem_subjects (h : s.participants.mapM config.observe = .ok observations)
    (subject : String) : subject ∈ observations.map (·.subject) ↔
      ∃ name ∈ s.names, config.subjectPrefix ++ name = subject := by
  simp only [List.mem_map, mem_of_mapM_ok h, Snapshot.mem_names]
  refine ⟨fun ⟨o, ⟨p, hp, ho⟩, hsubject⟩ => ?_, fun ⟨name, ⟨p, hp, hname⟩, hsubject⟩ => ?_⟩
  · exact ⟨p.name, ⟨p, hp, rfl⟩, (of_observe ho).1 ▸ hsubject⟩
  · obtain ⟨o, ho⟩ := exists_mapM_ok.1 ⟨_, h⟩ p hp
    refine ⟨o, ⟨p, hp, ho⟩, ?_⟩
    rw [(of_observe ho).1, hname, hsubject]

theorem mem_grantsOf (h : s.participants.mapM config.observe = .ok observations)
    (subject : String) (g : Grant) :
    g ∈ grantsOf observations subject ↔ config.Shows s subject g := by
  simp only [grantsOf, List.mem_flatMap, List.mem_filter, beq_iff_eq, mem_of_mapM_ok h]
  constructor
  · rintro ⟨o, ⟨⟨p, hp, ho⟩, hsubject⟩, hg⟩
    obtain ⟨r, hr, hclassify⟩ := ((of_observe ho).2 g).1 hg
    exact ⟨p.name, r, Snapshot.mem_records.2 ⟨p, hp, rfl, hr⟩, (of_observe ho).1 ▸ hsubject,
      hclassify⟩
  · rintro ⟨name, r, hr, hsubject, hclassify⟩
    obtain ⟨p, hp, hname, hr⟩ := Snapshot.mem_records.1 hr
    obtain ⟨o, ho⟩ := exists_mapM_ok.1 ⟨_, h⟩ p hp
    refine ⟨o, ⟨⟨p, hp, ho⟩, ?_⟩, ((of_observe ho).2 g).2 ⟨r, hr, hclassify⟩⟩
    rw [(of_observe ho).1, hname, hsubject]

/-! ## The policy of some observations -/

/-- The profiles of the observed subjects, as they are before rules are merged. -/
def observedProfiles (observations : List Observation) : List Profile :=
  (distinct (observations.map (·.subject))).map fun subject =>
    profileOf subject (grantsOf observations subject)

/-- The policy that is put together from some observations. -/
def policyOf (observations : List Observation) : Store :=
  ⟨[(Document.ofProfiles ((observedProfiles observations).map Profile.canonical)).sort]⟩

theorem synthesize_eq (config : Synthesis) (s : Snapshot) :
    config.synthesize s = (s.participants.mapM config.observe).map policyOf := by
  show s.participants.mapM config.observe >>= _ = _
  cases s.participants.mapM config.observe with
  | error e => rfl
  | ok observations =>
    show Except.ok _ = Except.ok _
    rw [policyOf, observedProfiles, List.map_map]
    rfl

/-- A policy is derived when the code of no record is refused. -/
theorem exists_synthesize : (∃ store, config.synthesize s = .ok store) ↔
    ∀ r ∈ s.records, ∃ g, config.classify r.2.1 r.2.2 = .ok g := by
  have observed : (∃ store, config.synthesize s = .ok store) ↔
      ∃ observations, s.participants.mapM config.observe = .ok observations := by
    rw [synthesize_eq]
    refine ⟨fun ⟨store, h⟩ => ?_, fun ⟨observations, h⟩ => ⟨_, by rw [h]; rfl⟩⟩
    obtain ⟨observations, hobservations, _⟩ := exists_ok_of_map h
    exact ⟨observations, hobservations⟩
  rw [observed, exists_mapM_ok]
  simp only [exists_observe]
  refine ⟨fun h r hr => ?_, fun h p hp r hr => ?_⟩
  · obtain ⟨p, hp, _, hr⟩ := Snapshot.mem_records.1 hr
    exact h p hp r.2 hr
  · exact h (p.name, r) (Snapshot.mem_records.2 ⟨p, hp, rfl, hr⟩)

/-- The grant of an endpoint whose code tells a kind. -/
def grantOf (config : Synthesis) (direction : Direction) (kind : EndpointKind) (name : String) :
    Grant :=
  ⟨kind.objectKind, if config.stripSuffixes then kind.stripSuffix name else name,
    kind.permission direction⟩

theorem classify_eq (config : Synthesis) (direction : Direction) (endpoint : Endpoint) :
    config.classify direction endpoint =
      match EndpointKind.ofCode? endpoint.codeAndName.1 with
      | none =>
        if config.strictCodes then .error (.unknownCode endpoint.codeAndName.1 endpoint.topic)
        else .ok none
      | some kind => .ok (some (config.grantOf direction kind endpoint.codeAndName.2)) := rfl

/-- A record can be refused only if unknown codes are errors. -/
theorem exists_classify (h : config.strictCodes = false) (direction : Direction)
    (endpoint : Endpoint) : ∃ g, config.classify direction endpoint = .ok g := by
  rw [classify_eq, h]
  cases EndpointKind.ofCode? endpoint.codeAndName.1 with
  | none => exact ⟨none, rfl⟩
  | some kind => exact ⟨_, rfl⟩

/-! ## Order and repetition -/

theorem objectLE_trans (a b c : ObjectKind × String) (hab : objectLE a b = true)
    (hbc : objectLE b c = true) : objectLE a c = true := by
  simp only [objectLE, Bool.or_eq_true, Bool.and_eq_true, decide_eq_true_eq, beq_iff_eq]
    at hab hbc ⊢
  rcases hab with hab | ⟨hab, htext⟩
  · rcases hbc with hbc | ⟨hbc, _⟩ <;> omega
  · rcases hbc with hbc | ⟨hbc, htext'⟩
    · omega
    · exact .inr ⟨by omega, String.le_trans htext htext'⟩

theorem objectLE_total (a b : ObjectKind × String) :
    (objectLE a b || objectLE b a) = true := by
  simp only [objectLE, Bool.or_eq_true, Bool.and_eq_true, decide_eq_true_eq, beq_iff_eq]
  rcases String.le_total a.2 b.2 with h | h
  · by_cases hrank : a.1.rank ≤ b.1.rank
    · by_cases heq : a.1.rank = b.1.rank
      · exact .inl (.inr ⟨heq, h⟩)
      · exact .inl (.inl (by omega))
    · exact .inr (.inl (by omega))
  · by_cases hrank : b.1.rank ≤ a.1.rank
    · by_cases heq : b.1.rank = a.1.rank
      · exact .inr (.inr ⟨heq, h⟩)
      · exact .inr (.inl (by omega))
    · exact .inl (.inl (by omega))

theorem rank_inj {k l : ObjectKind} (h : k.rank = l.rank) : k = l := by
  cases k <;> cases l <;> first | rfl | exact absurd h (by decide)

theorem objectLE_antisymm {a b : ObjectKind × String} (hab : objectLE a b = true)
    (hba : objectLE b a = true) : a = b := by
  simp only [objectLE, Bool.or_eq_true, Bool.and_eq_true, decide_eq_true_eq, beq_iff_eq]
    at hab hba
  have texts : a.2 ≤ b.2 ∧ b.2 ≤ a.2 ∧ a.1.rank = b.1.rank := by
    rcases hab with hab | ⟨hab, htext⟩ <;> rcases hba with hba | ⟨hba, htext'⟩
    · omega
    · omega
    · omega
    · exact ⟨htext, htext', hab⟩
  exact Prod.ext (rank_inj texts.2.2) (String.le_antisymm texts.1 texts.2.1)

/-- The profile of a subject depends on the set of its grants. -/
theorem profileOf_congr (subject : String) {grants grants' : List Grant}
    (h : ∀ g, g ∈ grants ↔ g ∈ grants') : profileOf subject grants = profileOf subject grants' := by
  have objects : grantedObjects grants = grantedObjects grants' := by
    refine mergeSort_eq_of_perm objectLE_trans objectLE_total
      (fun _ _ _ _ => objectLE_antisymm) (distinct_perm fun object => ?_)
    simp only [List.mem_map, h]
  have rules : ruleOf grants = ruleOf grants' := by
    funext object
    have same : ∀ g, grants.contains g = grants'.contains g := by
      intro g
      rw [Bool.eq_iff_iff, List.contains_iff_mem, List.contains_iff_mem, h]
    simp only [ruleOf, same]
  rw [profileOf, profileOf, objects, rules]

/-- Documents whose profiles have names of their own are sorted alike when they
hold the same profiles. -/
theorem sort_ofProfiles_congr {ps qs : List Profile} (h : ps.Perm qs)
    (names : ∀ p ∈ ps, ∀ q ∈ ps, p.name = q.name → p = q) :
    (Document.ofProfiles ps).sort = (Document.ofProfiles qs).sort := by
  have sorted : (ps.map Profile.sort).mergeSort (fun p q => decide (p.name ≤ q.name)) =
      (qs.map Profile.sort).mergeSort fun p q => decide (p.name ≤ q.name) := by
    refine mergeSort_on_eq_of_perm Profile.name (fun a ha b hb name => ?_) (h.map Profile.sort)
    obtain ⟨p, hp, rfl⟩ := List.mem_map.1 ha
    obtain ⟨q, hq, rfl⟩ := List.mem_map.1 hb
    rw [Profile.name_sort, Profile.name_sort] at name
    rw [names p hp q hq name]
  rw [Document.sort, Document.sort, Document.ofProfiles, Document.ofProfiles, sorted]

/-- The policy depends on the set of subjects and on the set of grants of each. -/
theorem policyOf_congr
    (subjects : ∀ subject, subject ∈ observations.map (·.subject) ↔
      subject ∈ observations'.map (·.subject))
    (grants : ∀ subject g, g ∈ grantsOf observations subject ↔
      g ∈ grantsOf observations' subject) :
    policyOf observations = policyOf observations' := by
  have profiles : (observedProfiles observations).Perm (observedProfiles observations') := by
    have same : (fun subject => profileOf subject (grantsOf observations subject)) =
        fun subject => profileOf subject (grantsOf observations' subject) :=
      funext fun subject => profileOf_congr subject (grants subject)
    rw [observedProfiles, observedProfiles, same]
    exact (distinct_perm subjects).map _
  rw [policyOf, policyOf, sort_ofProfiles_congr (profiles.map _)]
  -- the name of a profile is its subject, and a subject has one profile
  intro a ha b hb hname
  obtain ⟨p, hp, rfl⟩ := List.mem_map.1 ha
  obtain ⟨q, hq, rfl⟩ := List.mem_map.1 hb
  obtain ⟨subject, _, rfl⟩ := List.mem_map.1 hp
  obtain ⟨subject', _, rfl⟩ := List.mem_map.1 hq
  rw [Profile.name_canonical, Profile.name_canonical] at hname
  have hsubject : subject = subject' := hname
  rw [hsubject]

theorem Shows.congr (h : s.SameRecords t) (subject : String) (g : Grant) :
    config.Shows s subject g ↔ config.Shows t subject g := by
  refine exists_congr fun name => exists_congr fun r => and_congr_left fun _ => ?_
  exact h.records (name, r)

/-- Snapshots with the same records give one policy, and if one of them gives none
then neither does the other, which happens only where unknown codes are errors. -/
theorem synthesize_of_sameRecords (config : Synthesis) {s t : Snapshot} (h : s.SameRecords t) :
    (∃ store, config.synthesize s = .ok store ∧ config.synthesize t = .ok store) ∨
      (config.strictCodes = true ∧ (∃ e, config.synthesize s = .error e) ∧
        ∃ e, config.synthesize t = .error e) := by
  have answers : (∃ store, config.synthesize s = .ok store) ↔
      ∃ store, config.synthesize t = .ok store := by
    rw [exists_synthesize, exists_synthesize]
    exact forall_congr' fun r => imp_congr_left (h.records r)
  cases hs : config.synthesize s with
  | ok store =>
    obtain ⟨store', ht⟩ := answers.1 ⟨store, hs⟩
    refine .inl ⟨store, rfl, ?_⟩
    rw [synthesize_eq] at hs ht
    obtain ⟨observations, hobs, rfl⟩ := exists_ok_of_map hs
    obtain ⟨observations', hobs', rfl⟩ := exists_ok_of_map ht
    have same : policyOf observations = policyOf observations' := by
      refine policyOf_congr (fun subject => ?_) fun subject g => ?_
      · rw [mem_subjects hobs, mem_subjects hobs']
        exact exists_congr fun name => and_congr_left fun _ => h.names name
      · rw [mem_grantsOf hobs, mem_grantsOf hobs', Shows.congr h]
    rw [synthesize_eq, hobs', same]
    rfl
  | error e =>
    refine .inr ⟨?_, ⟨e, rfl⟩, ?_⟩
    · by_contra hstrict
      rw [Bool.not_eq_true] at hstrict
      obtain ⟨store, hstore⟩ := exists_synthesize.2 fun (r : String × Direction × Endpoint)
        (_ : r ∈ s.records) => exists_classify hstrict r.2.1 r.2.2
      rw [hs] at hstore
      nomatch hstore
    · cases ht : config.synthesize t with
      | error e' => exact ⟨e', rfl⟩
      | ok store =>
        obtain ⟨store', hstore⟩ := answers.2 ⟨store, ht⟩
        rw [hs] at hstore
        nomatch hstore

/-- A relay that is seen once, with a record that repeats and an idle participant
behind it. -/
def relayOnce : Snapshot :=
  ⟨[{ name := "relay", publications := [⟨"chatter", some "rt"⟩, ⟨"addRequest", some "rq/math"⟩],
      subscriptions := [⟨"rt/log", none⟩, ⟨"chatter", some "rt"⟩, ⟨"rt/log", none⟩] },
    { name := "idle" }]⟩

/-- The relay in two parts around the idle participant, in another order. -/
def relaySplit : Snapshot :=
  ⟨[{ name := "relay", subscriptions := [⟨"chatter", some "rt"⟩] },
    { name := "idle" },
    { name := "relay", publications := [⟨"addRequest", some "rq/math"⟩, ⟨"chatter", some "rt"⟩],
      subscriptions := [⟨"rt/log", none⟩] }]⟩

/-- The relay seen in one piece and in two. -/
theorem synthesize_of_sameRecords_relay : relayOnce.SameRecords relaySplit ∧
    ∃ store, Synthesis.synthesize {} relayOnce = .ok store ∧
      Synthesis.synthesize {} relaySplit = .ok store := by
  have same : relayOnce.SameRecords relaySplit := by decide
  refine ⟨same, ?_⟩
  rcases synthesize_of_sameRecords {} same with h | ⟨strict, _⟩
  · exact h
  · exact absurd strict (by decide)

end Synthesis

end Discovery

end AccessPolicy
