import AccessPolicy.Proofs.Discovery.Granted
import AccessPolicy.Proofs.Document.Kept

/-!
# Reading a derived policy again

A derived policy puts the names of subjects and objects where a policy has attachments. It
can be read back exactly when all of them are such as can be read
(`Synthesis.readable_iff`). The names of subjects come from the snapshot alone; of the names
of objects, which are cut from topics and partitions, those are empty that come from a topic
without a partition that is a bare code (`Synthesis.object_eq_empty_iff`).
-/

namespace AccessPolicy

namespace Discovery

/-! ## Empty names -/

/-- Without its suffix a name is empty when there is nothing else to it. -/
theorem EndpointKind.stripSuffix_eq_empty_iff {kind : EndpointKind} {name : String} :
    kind.stripSuffix name = "" ↔ name = "" ∨ kind.suffix? = some name := by
  unfold stripSuffix
  cases kind.suffix? with
  | none => simp
  | some suffix =>
    have dropped : dropSuffix suffix.toList name.toList = [] ↔
        name.toList = [] ∨ suffix.toList = name.toList := by
      rw [dropSuffix]
      split
      · rename_i hsuffix
        obtain ⟨front, hfront⟩ := List.isSuffixOf_iff_suffix.1 hsuffix
        have taken : name.toList.take (name.toList.length - suffix.toList.length) = front := by
          rw [← hfront, List.length_append, Nat.add_sub_cancel, List.take_left]
        rw [taken, ← hfront]
        simpa using fun hfront _ => hfront
      · rename_i hsuffix
        refine ⟨.inl, fun h => h.resolve_right fun same => hsuffix ?_⟩
        rw [same]
        exact List.isSuffixOf_iff_suffix.2 (List.suffix_refl _)
    simpa [String.toList_inj] using dropped

/-- A name that stands in a partition is not empty, whatever is dropped from it. -/
theorem EndpointKind.stripSuffix_remap_ne (kind : EndpointKind) (partition topic : String) :
    kind.stripSuffix (remap partition topic) ≠ "" := by
  have slash : '/' ∈ (remap partition topic).toList := by simp [remap]
  rw [Ne, stripSuffix_eq_empty_iff]
  rintro (empty | suffix)
  · rw [empty] at slash
    nomatch slash
  · cases kind with
    | rosTopic => nomatch suffix
    | rosRequest =>
      rw [← Option.some.inj suffix] at slash
      revert slash
      decide
    | rosReply =>
      rw [← Option.some.inj suffix] at slash
      revert slash
      decide

theorem EndpointKind.code_of_ofCode? {code : String} {kind : EndpointKind}
    (h : ofCode? code = some kind) : kind.code = code := by
  simpa using List.find?_some h

theorem append_of_splitCode? {name front back : String}
    (h : splitCode? name = some (front, back)) : name = front ++ back := by
  obtain ⟨⟨cs, ds⟩, hcut, hparts⟩ := Option.map_eq_some_iff.1 h
  obtain ⟨rfl, rfl⟩ := Prod.mk.inj hparts
  rw [← String.ofList_append, ← (Text.splitAtByte?_eq_some_iff.1 hcut).1, String.ofList_toList]

theorem splitCode?_code_append (kind : EndpointKind) (rest : String) :
    splitCode? (kind.code ++ rest) = some (kind.code, rest) := by
  have cut : Text.splitAtByte? 2 (kind.code ++ rest).toList =
      some (kind.code.toList, rest.toList) := by
    rw [Text.splitAtByte?_eq_some_iff, String.toList_append]
    exact ⟨rfl, by cases kind <;> decide⟩
  exact Option.map_eq_some_iff.2 ⟨_, cut, Prod.ext String.ofList_toList String.ofList_toList⟩

/-- A topic in no partition whose code is known is that code followed by the name, and no other
code followed by anything. -/
theorem Endpoint.topic_eq_iff {topic : String} {kind : EndpointKind}
    (hkind : EndpointKind.ofCode? (codeAndName ⟨topic, none⟩).1 = some kind)
    (other : EndpointKind) (rest : String) :
    topic = other.code ++ rest ↔ other = kind ∧ (codeAndName ⟨topic, none⟩).2 = rest := by
  have cut : codeAndName ⟨topic, none⟩ = (splitCode? topic).getD (topic, "") := rfl
  rw [cut] at hkind ⊢
  constructor
  · intro htopic
    rw [htopic, splitCode?_code_append] at hkind ⊢
    have same : some other = some kind := (EndpointKind.ofCode?_code other).symm.trans hkind
    exact ⟨Option.some.inj same, rfl⟩
  · rintro ⟨rfl, rfl⟩
    cases hsplit : splitCode? topic with
    | none =>
      rw [hsplit] at hkind
      exact ((String.append_empty).trans (EndpointKind.code_of_ofCode? hkind)).symm
    | some parts =>
      rw [hsplit] at hkind
      rw [EndpointKind.code_of_ofCode? hkind]
      exact append_of_splitCode? hsplit

/-- The endpoint has no partition, and its topic is a code with nothing behind it, or with
nothing but what is dropped. -/
def Endpoint.IsBare (config : Synthesis) (endpoint : Endpoint) : Prop :=
  endpoint.partition = none ∧ ∃ kind : EndpointKind, endpoint.topic = kind.code ∨
    config.stripSuffixes = true ∧ ∃ suffix ∈ kind.suffix?, endpoint.topic = kind.code ++ suffix

/-- The name of an object is empty exactly when its endpoint is bare. -/
theorem Synthesis.object_eq_empty_iff {config : Synthesis} {direction : Direction}
    {endpoint : Endpoint} {g : Grant} (h : config.classify direction endpoint = .ok (some g)) :
    g.object = "" ↔ endpoint.IsBare config := by
  rw [classify_eq] at h
  split at h
  · split at h <;> nomatch h
  rename_i kind hkind
  obtain rfl : config.grantOf direction kind endpoint.codeAndName.2 = g := by simpa using h
  have object : (config.grantOf direction kind endpoint.codeAndName.2).object = "" ↔
      endpoint.codeAndName.2 = "" ∨
        config.stripSuffixes = true ∧ kind.suffix? = some endpoint.codeAndName.2 := by
    unfold grantOf
    by_cases hstrip : config.stripSuffixes = true
    · rw [if_pos hstrip, EndpointKind.stripSuffix_eq_empty_iff]
      simp [hstrip]
    · simp [hstrip]
  rw [object]
  obtain ⟨topic, partition⟩ := endpoint
  cases partition with
  | some partition =>
    refine iff_of_false ?_ fun hbare => nomatch hbare.1
    have named := kind.stripSuffix_remap_ne partition topic
    rw [Ne, EndpointKind.stripSuffix_eq_empty_iff] at named
    exact fun hempty => named (hempty.imp_right And.right)
  | none =>
    have reads := Endpoint.topic_eq_iff hkind
    constructor
    · rintro (hname | ⟨hstrip, hsuffix⟩)
      · have topic := (reads kind "").2 ⟨rfl, hname⟩
        exact ⟨rfl, kind, .inl (by rwa [String.append_empty] at topic)⟩
      · exact ⟨rfl, kind, .inr ⟨hstrip, _, hsuffix, (reads kind _).2 ⟨rfl, rfl⟩⟩⟩
    · rintro ⟨_, other, hother | ⟨hstrip, suffix, hsuffix, hother⟩⟩
      · exact .inl ((reads other "").1 (by rw [String.append_empty]; exact hother)).2
      · obtain ⟨rfl, rfl⟩ := (reads other suffix).1 hother
        exact .inr ⟨hstrip, hsuffix⟩

/-! ## One profile -/

theorem isWellFormed_profileOf {subject : String} {grants : List Grant}
    (hsubject : IsAttachment subject) (hgrants : ∀ g ∈ grants, IsAttachment g.object) :
    (profileOf subject grants).IsWellFormed := by
  refine Profile.isWellFormed_iff.2 ⟨⟨hsubject.nonempty, fun a ha => ?_, fun r hr => ?_⟩,
    fun q hq => absurd hq profile_not_mem_profileOf⟩
  · rw [List.mem_singleton.1 ha]
    exact hsubject
  · obtain ⟨object, hobject, rfl⟩ := rule_mem_profileOf.1 (Profile.mem_rules.1 hr)
    obtain ⟨v, hv⟩ := mem_grantedObjects.1 hobject
    refine ⟨List.cons_ne_nil _ _, fun a ha => ?_⟩
    rw [List.mem_singleton.1 ha]
    exact hgrants _ hv

namespace Synthesis

variable {config : Synthesis} {s : Snapshot} {store : Store}

/-- A policy is well-formed when the names of all subjects and objects can be read. -/
theorem isWellFormed_of_synthesize (h : config.synthesize s = .ok store)
    (subjects : ∀ name ∈ s.names, IsAttachment (config.subjectPrefix ++ name))
    (objects : ∀ r ∈ s.records, ∀ g, config.classify r.2.1 r.2.2 = .ok (some g) →
      IsAttachment g.object) : ∀ p ∈ store.profiles, p.IsWellFormed := by
  rw [synthesize_eq] at h
  obtain ⟨observations, hobs, rfl⟩ := exists_ok_of_map h
  intro p hp
  obtain ⟨c, hc, rfl⟩ := (changes_policyOf observations p).1 hp
  obtain ⟨subject, hsubject, rfl⟩ := mem_profiles_observedStore.1 hc
  obtain ⟨name, hname, rfl⟩ := (mem_subjects hobs subject).1 hsubject
  have granted : ∀ g ∈ grantsOf observations (config.subjectPrefix ++ name),
      IsAttachment g.object := by
    intro g hg
    obtain ⟨other, r, hr, _, hclassify⟩ := (mem_grantsOf hobs _ g).1 hg
    exact objects (other, r) hr g hclassify
  exact (isWellFormed_profileOf (subjects name hname) granted).merge.sort.sort

/-- All names of subjects and objects stand as attachments in a policy. -/
theorem isAttachment_of_isWellFormed (h : config.synthesize s = .ok store)
    (wellFormed : ∀ p ∈ store.profiles, p.IsWellFormed) :
    (∀ name ∈ s.names, IsAttachment (config.subjectPrefix ++ name)) ∧
      ∀ r ∈ s.records, ∀ g, config.classify r.2.1 r.2.2 = .ok (some g) →
        IsAttachment g.object := by
  obtain ⟨describes, profiles⟩ := describes_of_synthesize h
  constructor
  · intro name hname
    obtain ⟨p, hp, subject⟩ := profiles name hname
    obtain ⟨parts, _⟩ := Profile.isWellFormed_iff.1 (wellFormed p hp)
    rw [← subject]
    exact parts.attachments _ (((describes p hp).1.mem_attachments p.name).2 rfl)
  · intro r hr g hg
    obtain ⟨participant, hparticipant, hname, _⟩ := Snapshot.mem_records.1 hr
    obtain ⟨p, hp, subject⟩ := profiles r.1 (Snapshot.mem_names.2 ⟨participant, hparticipant, hname⟩)
    obtain ⟨parts, _⟩ := Profile.isWellFormed_iff.1 (wellFormed p hp)
    obtain ⟨rule, hrule, _, _, ha⟩ :=
      (describes p hp).2.complete g.kind g.object g.permission ⟨r.1, r.2, hr, subject.symm, hg⟩
    exact (parts.rules rule hrule).attachments _ ha

/-- The documents of a store are read back exactly when all profiles are well-formed. -/
theorem readable_iff_isWellFormed :
    (∀ d ∈ store.documents, ∃ e, Document.ofElement? d.toElement = .ok e ∧
      e.profiles = d.profiles) ↔ ∀ p ∈ store.profiles, p.IsWellFormed := by
  simp only [Store.mem_profiles, forall_exists_index, and_imp]
  constructor
  · intro h p d hd hp
    obtain ⟨e, hread, hprofiles⟩ := h d hd
    exact Document.isWellFormed_iff.1 (Document.isWellFormed_of_ofElement? hread) p (hprofiles ▸ hp)
  · intro h d hd
    have wellFormed := Document.isWellFormed_iff.2 fun p hp => h p d hd hp
    exact ⟨_, Document.ofElement?_toElement wellFormed, rfl⟩

/-- The documents of a derived policy can be read back exactly when the names of all subjects
and objects are attachments that are read as they are written; and the name of an object is
empty just when its endpoint has no partition and only a code for a topic. -/
theorem readable_iff (h : config.synthesize s = .ok store) :
    ((∀ d ∈ store.documents, ∃ e, Document.ofElement? d.toElement = .ok e ∧
        e.profiles = d.profiles) ↔
      (∀ name ∈ s.names, IsAttachment (config.subjectPrefix ++ name)) ∧
        ∀ r ∈ s.records, ∀ g, config.classify r.2.1 r.2.2 = .ok (some g) →
          IsAttachment g.object) ∧
      ∀ r ∈ s.records, ∀ g, config.classify r.2.1 r.2.2 = .ok (some g) →
        (g.object = "" ↔ r.2.2.IsBare config) := by
  refine ⟨readable_iff_isWellFormed.trans ⟨isAttachment_of_isWellFormed h, fun names => ?_⟩,
    fun r _ g hg => object_eq_empty_iff hg⟩
  exact isWellFormed_of_synthesize h names.1 names.2

/-- The policy of the relay can be read back. -/
theorem readable_relay : ∃ store, Synthesis.synthesize {} relayOnce = .ok store ∧
    ∀ d ∈ store.documents, ∃ e, Document.ofElement? d.toElement = .ok e ∧
      e.profiles = d.profiles := by
  obtain ⟨store, hstore⟩ := exists_synthesize.2 fun r (_ : r ∈ relayOnce.records) =>
    @exists_classify {} rfl r.2.1 r.2.2
  have subjects : ∀ name ∈ relayOnce.names, IsAttachment ("/" ++ name) := by decide
  have objects : ∀ r ∈ relayOnce.records, (classify {} r.2.1 r.2.2).toOption.join.all
      (fun g => decide (IsAttachment g.object)) = true := by decide
  refine ⟨store, hstore, (readable_iff hstore).1.2 ⟨subjects, fun r hr g hg => ?_⟩⟩
  have object := objects r hr
  rw [hg] at object
  exact of_decide_eq_true object

/-- A participant that publishes a topic without a partition, of which there is nothing but
the code. -/
def bareTopic : Snapshot := ⟨[{ name := "spy", publications := [⟨"rt", none⟩] }]⟩

/-- The rule for the topic has an empty attachment, so the policy is not read back. -/
theorem unreadable_bareTopic :
    let d : Document := .ofProfiles
      [⟨"/spy", ["/spy"], none, [.rule ⟨.rosTopic, .allow, none, [""], [.rosPublish]⟩]⟩]
    Synthesis.synthesize {} bareTopic = .ok ⟨[d]⟩ ∧
      Document.ofElement? d.toElement = .error (.missingField "text()"
        ⟨"profiles", [⟨"profile", 1⟩, ⟨"ros_topic", 1⟩, ⟨"attachments", 1⟩, ⟨"attachment", 1⟩]⟩) := by
  decide +kernel

end Synthesis

end Discovery

end AccessPolicy
