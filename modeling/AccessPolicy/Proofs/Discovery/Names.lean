import AccessPolicy.Proofs.Discovery.Granted
import AccessPolicy.Proofs.Graph.Connect
import AccessPolicy.Proofs.Pattern.Literal

/-!
# Policies of networks with ordinary names

The names that were observed become the patterns of a derived policy as they are.
An attachment is the name of an object that was seen, and denotes it if the name
is plain (`Synthesis.attachments_denote_observed`). Where all names are plain
(`Synthesis.PlainNames`) the policy has a verdict on every permission, and allows
exactly what the snapshot shows (`Synthesis.PlainNames.verdict_eq`).

Names of letters, digits, `_` and `/` are plain, and classifying an endpoint makes
such names of such names (`Synthesis.isOrdinary_object`); so a policy that is
derived from them grants what was observed (`Synthesis.evaluate_grants_observed`).
-/

namespace AccessPolicy

open Pattern (isPlainName AnyMatches)

/-! ## Plain names among patterns -/

namespace Pattern

theorem compiles_of_isPlainName {source : String} (h : isPlainName source = true) :
    Compiles source := by
  obtain ⟨p, hp, _⟩ := compile?_plainName h
  exact ⟨p, hp⟩

/-- What can be seen of a pattern by compiling it. -/
theorem exists_of_any {source : String} {f : Pattern → Bool}
    (h : (compile? source).toOption.any f = true) :
    ∃ p, compile? source = .ok p ∧ f p = true := by
  cases hsource : compile? source with
  | error e =>
    rw [hsource] at h
    nomatch h
  | ok p =>
    rw [hsource] at h
    exact ⟨p, rfl, h⟩

/-- Among plain names, the pattern of a name is the name. -/
theorem anyMatches_plainNames {sources : List String}
    (h : ∀ a ∈ sources, isPlainName a = true) (name : String) :
    AnyMatches sources name ↔ name ∈ sources := by
  refine ⟨fun ⟨a, ha, p, hp, hmatch⟩ => ?_, fun hname => ?_⟩
  · obtain ⟨q, hq, literal⟩ := compile?_plainName (h a ha)
    obtain rfl : p = q := Except.ok.inj (hp.symm.trans hq)
    exact (literal name).1 hmatch ▸ ha
  · obtain ⟨p, hp, literal⟩ := compile?_plainName (h name hname)
    exact ⟨name, hname, p, hp, (literal name).2 rfl⟩

end Pattern

namespace Discovery

namespace Synthesis

variable {config : Synthesis} {s : Snapshot} {store : Store}

/-! ## What is shown is granted -/

/-- The subjects of the snapshot and the objects that it shows are plain names. -/
structure PlainNames (config : Synthesis) (s : Snapshot) : Prop where
  subjects : ∀ name ∈ s.names, isPlainName (config.subjectPrefix ++ name) = true
  objects : ∀ subject g, config.Shows s subject g → isPlainName g.object = true

namespace PlainNames

/-- The object of a rule is one that the snapshot shows. -/
theorem isPlainName_attachment (h : PlainNames config s) {p : Profile}
    (hp : DescribesRules config s p) : ∀ r ∈ p.rules, ∀ a ∈ r.attachments,
      isPlainName a = true := by
  intro r hr a ha
  obtain ⟨v, hv⟩ := hp.someShown r hr a ha
  exact h.objects p.name _ ((hp.shown r hr a ha v).1 hv)

/-- The name of a profile is a subject of the snapshot. -/
theorem isPlainName_subject (h : PlainNames config s) {p : Profile}
    (hp : DescribesSubject config s p) : isPlainName p.name = true := by
  obtain ⟨name, hname, hsubject⟩ := hp.subject
  rw [← hsubject]
  exact h.subjects name hname

theorem isFor_iff (h : PlainNames config s) {p : Profile} (hp : DescribesSubject config s p)
    (subject : String) : p.IsFor subject ↔ subject = p.name := by
  have plain : ∀ a ∈ p.attachments, isPlainName a = true := by
    intro a ha
    rw [(hp.mem_attachments a).1 ha]
    exact h.isPlainName_subject hp
  rw [Profile.IsFor, Pattern.anyMatches_plainNames plain, hp.mem_attachments]

theorem compiles (h : PlainNames config s) (hstore : config.synthesize s = .ok store) :
    store.Compiles where
  subjects p hp a ha := by
    obtain ⟨hsubject, _⟩ := describes_of_mem_walk hstore hp
    rw [(hsubject.mem_attachments a).1 ha]
    exact Pattern.compiles_of_isPlainName (h.isPlainName_subject hsubject)
  objects p hp r hr a ha := by
    obtain ⟨_, hrules⟩ := describes_of_mem_walk hstore hp
    exact Pattern.compiles_of_isPlainName (h.isPlainName_attachment hrules r hr a ha)

/-- A rule of a derived policy governs the subject of its profile. -/
theorem governs_iff (h : PlainNames config s) (hstore : config.synthesize s = .ok store)
    (subject : String) (r : Rule) :
    store.Governs subject r ↔ ∃ p ∈ store.profiles, p.name = subject ∧ r ∈ p.rules := by
  refine exists_congr fun p => and_congr_right fun hp => ?_
  obtain ⟨hsubject, _⟩ := (describes_of_synthesize hstore).1 p hp
  rw [Profile.governs_iff, h.isFor_iff hsubject, Profile.mem_rules, Profile.ItemsGovern]
  simp [hsubject.flat, eq_comm]

theorem speaks_iff (h : PlainNames config s) (hstore : config.synthesize s = .ok store)
    (q : Qualifier) (subject : String) (kind : ObjectKind) (object : String) (v : Permission) :
    store.Speaks q subject kind object v ↔
      q = .allow ∧ config.Shows s subject ⟨kind, object, v⟩ := by
  have describes := (describes_of_synthesize hstore).1
  unfold Store.Speaks Rule.SpeaksOn
  simp only [h.governs_iff hstore]
  refine ⟨fun ⟨r, ⟨p, hp, hname, hr⟩, hkind, hq, hv, hmatch⟩ => ?_, fun ⟨hq, hshows⟩ => ?_⟩
  · obtain ⟨_, hrules⟩ := describes p hp
    rw [Pattern.anyMatches_plainNames (h.isPlainName_attachment hrules r hr)] at hmatch
    rw [← hq, ← hname, ← hkind]
    exact ⟨hrules.allows r hr object hmatch, (hrules.shown r hr object hmatch v).1 hv⟩
  · obtain ⟨name, record, hrecord, hsubject, _⟩ := id hshows
    obtain ⟨participant, hparticipant, hname, _⟩ := Snapshot.mem_records.1 hrecord
    have observed : name ∈ s.names := Snapshot.mem_names.2 ⟨participant, hparticipant, hname⟩
    obtain ⟨p, hp, hpname⟩ := (describes_of_synthesize hstore).2 name observed
    rw [hsubject] at hpname
    obtain ⟨_, hrules⟩ := describes p hp
    obtain ⟨r, hr, hkind, hv, hobject⟩ := hrules.complete kind object v (hpname ▸ hshows)
    refine ⟨r, ⟨p, hp, hpname, hr⟩, hkind, ?_, hv, ?_⟩
    · rw [hq]
      exact hrules.allows r hr object hobject
    · rw [Pattern.anyMatches_plainNames (h.isPlainName_attachment hrules r hr)]
      exact hobject

open Classical in
/-- The verdict of a derived policy follows the snapshot. -/
theorem verdict_eq (h : PlainNames config s) (hstore : config.synthesize s = .ok store)
    (subject : String) (kind : ObjectKind) (object : String) (v : Permission) :
    store.verdict subject kind object v =
      if config.Shows s subject ⟨kind, object, v⟩ then .allow else .deny := by
  unfold Store.verdict
  simp only [h.speaks_iff hstore]
  simp

end PlainNames

/-! ## What an attachment stands for -/

/-- Every attachment of a rule is the name of an object that the snapshot shows the
subject to use in all ways that the rule allows. If that name is plain, the
attachment compiles, and matches the name and no other. -/
theorem attachments_denote_observed (hstore : config.synthesize s = .ok store) {p : Profile}
    (hp : p ∈ store.walk) {r : Rule} (hr : r ∈ p.rules) {a : String} (ha : a ∈ r.attachments) :
    (∃ v, v ∈ r.permissions) ∧
      (∀ v ∈ r.permissions, config.Shows s p.name ⟨r.kind, a, v⟩) ∧
      (isPlainName a = true → ∃ pattern, Pattern.compile? a = .ok pattern ∧
        ∀ name : String, pattern.isMatch name = true ↔ name = a) := by
  obtain ⟨_, hrules⟩ := describes_of_mem_walk hstore hp
  refine ⟨hrules.someShown r hr a ha, fun v hv => ?_, Pattern.compile?_plainName⟩
  exact (hrules.shown r hr a ha v).1 hv

/-- The rule that a relay gets for what it publishes. -/
theorem attachments_denote_observed_relay : ∃ store p r,
    Synthesis.synthesize {} relayOnce = .ok store ∧ p ∈ store.walk ∧ r ∈ p.rules ∧
      "/chatter" ∈ r.attachments ∧ isPlainName "/chatter" = true ∧
      (∃ v, v ∈ r.permissions) ∧
      (∀ v ∈ r.permissions, Shows {} relayOnce p.name ⟨r.kind, "/chatter", v⟩) ∧
      ∃ pattern, Pattern.compile? "/chatter" = .ok pattern ∧
        ∀ name : String, pattern.isMatch name = true ↔ name = "/chatter" := by
  obtain ⟨store, hstore⟩ := exists_synthesize.2 fun r (_ : r ∈ relayOnce.records) =>
    @exists_classify {} rfl r.2.1 r.2.2
  obtain ⟨p, hp, hname⟩ := (describes_of_synthesize hstore).2 "relay" (by decide)
  obtain ⟨_, hrules⟩ := (describes_of_synthesize hstore).1 p hp
  obtain ⟨r, hr, _, _, ha⟩ := hrules.complete .rosTopic "/chatter" .rosPublish
    (hname ▸ by decide)
  have hwalk := (mem_walk_of_synthesize hstore).2 hp
  have plain : isPlainName "/chatter" = true := by decide
  obtain ⟨some, shown, denotes⟩ := attachments_denote_observed hstore hwalk hr ha
  exact ⟨store, p, r, hstore, hwalk, hr, ha, plain, some, shown, denotes plain⟩

/-- A participant that publishes three topics, none of which has a plain name. -/
def oddNames : Snapshot :=
  ⟨[{ name := "spy", publications :=
      [⟨"a*", some "rt"⟩, ⟨"[a]", some "rt"⟩, ⟨"\x7ba", some "rt"⟩] }]⟩

/-- Of three names that are not plain, the first covers a name that was not seen,
the second does not cover itself, and the third does not compile. -/
theorem attachments_oddNames : ∃ store, Synthesis.synthesize {} oddNames = .ok store ∧
    (∃ p ∈ store.walk, ∀ a ∈ ["/a*", "/[a]", "/\x7ba"], ∃ r ∈ p.rules, a ∈ r.attachments) ∧
    (∃ pattern, Pattern.compile? "/a*" = .ok pattern ∧ pattern.isMatch "/ab" = true) ∧
    (∃ pattern, Pattern.compile? "/[a]" = .ok pattern ∧ pattern.isMatch "/[a]" = false) ∧
    ¬ Pattern.Compiles "/\x7ba" := by
  obtain ⟨store, hstore⟩ := exists_synthesize.2 fun r (_ : r ∈ oddNames.records) =>
    @exists_classify {} rfl r.2.1 r.2.2
  obtain ⟨p, hp, hname⟩ := (describes_of_synthesize hstore).2 "spy" (by decide)
  obtain ⟨_, hrules⟩ := (describes_of_synthesize hstore).1 p hp
  have shown : ∀ a ∈ ["/a*", "/[a]", "/\x7ba"],
      Shows {} oddNames "/spy" ⟨.rosTopic, a, .rosPublish⟩ := by decide
  refine ⟨store, hstore, ⟨p, (mem_walk_of_synthesize hstore).2 hp, fun a ha => ?_⟩, ?_, ?_, ?_⟩
  · obtain ⟨r, hr, _, _, hattached⟩ := hrules.complete .rosTopic a .rosPublish
      (hname ▸ shown a ha)
    exact ⟨r, hr, hattached⟩
  · exact Pattern.exists_of_any (by decide +kernel)
  · have narrowed : ∃ q, Pattern.compile? "/[a]" = .ok q ∧ (!q.isMatch "/[a]") = true :=
      Pattern.exists_of_any (by decide +kernel)
    obtain ⟨q, hq, hmatch⟩ := narrowed
    exact ⟨q, hq, by simpa using hmatch⟩
  · decide

end Synthesis

/-! ## Ordinary names -/

/-- An ASCII letter or digit, `_` or `/`. -/
def isOrdinaryChar (c : Char) : Bool := c.isAlphanum || c == '_' || c == '/'

/-- The name is made of ordinary characters. -/
def IsOrdinary (name : String) : Prop := ∀ c ∈ name.toList, isOrdinaryChar c = true

instance (name : String) : Decidable (IsOrdinary name) :=
  decidable_of_iff (name.toList.all isOrdinaryChar = true) List.all_eq_true

theorem isOrdinaryChar_toNat {c : Char} (h : isOrdinaryChar c = true) :
    47 ≤ c.toNat ∧ c.toNat ≤ 122 := by
  have ranges : ((((decide (65 ≤ c.val ∧ c.val ≤ 90) ||
      decide (97 ≤ c.val) && decide (c.val ≤ 122)) ||
      decide (48 ≤ c.val) && decide (c.val ≤ 57)) || c == '_') || c == '/') = true := h
  simp only [Bool.or_eq_true, Bool.and_eq_true, decide_eq_true_eq, beq_iff_eq,
    UInt32.le_iff_toNat_le, UInt32.reduceToNat, Char.toNat_val] at ranges
  rcases ranges with (((h | h) | h) | rfl) | rfl
  · omega
  · omega
  · omega
  · decide
  · decide

/-- No blank is ordinary. -/
theorem isBlank_of_isOrdinaryChar {c : Char} (h : isOrdinaryChar c = true) :
    Text.isBlank c = false := by
  have range := isOrdinaryChar_toNat h
  simp only [Text.isBlank, Bool.or_eq_false_iff, Bool.and_eq_false_iff, decide_eq_false_iff_not,
    beq_eq_false_iff_ne]
  omega

/-- No operator of globs is ordinary. -/
theorem isBare_of_isOrdinaryChar {c : Char} (h : isOrdinaryChar c = true) :
    Glob.isBare c = true := by
  have other : ∀ d, isOrdinaryChar d = false → c ≠ d := by
    rintro d hd rfl
    exact Bool.false_ne_true (hd.symm.trans h)
  simp only [Glob.isBare, Glob.isLiteral, Bool.and_eq_true, bne_iff_ne]
  refine ⟨⟨⟨⟨⟨⟨⟨⟨⟨?_, ?_⟩, ?_⟩, ?_⟩, ?_⟩, ?_⟩, ?_⟩, ?_⟩, ?_⟩, ?_⟩ <;> exact other _ (by decide)

/-- An ordinary name is plain, unless it is empty. -/
theorem IsOrdinary.isPlainName {name : String} (h : IsOrdinary name) (hne : name ≠ "") :
    isPlainName name = true := by
  have nonempty : name.toList ≠ [] := by simpa using hne
  have notDollar : ∀ c, isOrdinaryChar c = true → c ≠ '$' := by
    rintro c hc rfl
    exact absurd hc (by decide)
  have front := h _ (List.head_mem nonempty)
  have back := h _ (List.getLast_mem nonempty)
  have bare : name.toList.all Glob.isBare = true :=
    List.all_eq_true.2 fun c hc => isBare_of_isOrdinaryChar (h c hc)
  rw [Pattern.isPlainName, bare, List.head?_eq_some_head nonempty,
    List.getLast?_eq_some_getLast nonempty]
  simp [isBlank_of_isOrdinaryChar front, isBlank_of_isOrdinaryChar back, notDollar _ back]

theorem isOrdinary_append {a b : String} :
    IsOrdinary (a ++ b) ↔ IsOrdinary a ∧ IsOrdinary b := by
  simp only [IsOrdinary, String.toList_append, List.forall_mem_append]

/-! ## Names of objects -/

theorem isOrdinary_splitCode? {name front back : String} (h : IsOrdinary name)
    (hsplit : splitCode? name = some (front, back)) : IsOrdinary back := by
  obtain ⟨⟨cs, ds⟩, hcut, hparts⟩ := Option.map_eq_some_iff.1 hsplit
  obtain ⟨hname, _⟩ := Text.splitAtByte?_eq_some_iff.1 hcut
  obtain ⟨rfl, rfl⟩ := Prod.mk.inj hparts
  intro c hc
  rw [String.toList_ofList] at hc
  exact h c (hname ▸ List.mem_append_right cs hc)

theorem isOrdinary_empty : IsOrdinary "" := by decide

/-- The topic of the endpoint is ordinary, and so is its partition if it has one. -/
def Endpoint.IsOrdinary (endpoint : Endpoint) : Prop :=
  Discovery.IsOrdinary endpoint.topic ∧
    ∀ partition ∈ endpoint.partition, Discovery.IsOrdinary partition

instance (endpoint : Endpoint) : Decidable endpoint.IsOrdinary :=
  inferInstanceAs (Decidable (_ ∧ ∀ partition ∈ endpoint.partition,
    Discovery.IsOrdinary partition))

/-- The name behind an endpoint is made of its topic, its partition and a
separator. -/
theorem Endpoint.IsOrdinary.name {endpoint : Endpoint} (h : endpoint.IsOrdinary) :
    Discovery.IsOrdinary endpoint.codeAndName.2 := by
  obtain ⟨topic, partition⟩ := endpoint
  obtain ⟨htopic, hpartition⟩ := h
  cases partition with
  | some partition =>
    show Discovery.IsOrdinary (remap partition topic)
    have space : Discovery.IsOrdinary (((splitCode? partition).map Prod.snd).getD "") := by
      cases hsplit : splitCode? partition with
      | none => exact isOrdinary_empty
      | some parts => exact isOrdinary_splitCode? (hpartition partition rfl) hsplit
    rw [remap, isOrdinary_append, isOrdinary_append]
    exact ⟨⟨space, by decide⟩, htopic⟩
  | none =>
    show Discovery.IsOrdinary ((splitCode? topic).getD (topic, "")).2
    cases hsplit : splitCode? topic with
    | none => exact isOrdinary_empty
    | some parts => exact isOrdinary_splitCode? htopic hsplit

/-- What is left of a name without a suffix stands in front in it. -/
theorem isOrdinary_stripSuffix (kind : EndpointKind) {name : String} (h : IsOrdinary name) :
    IsOrdinary (kind.stripSuffix name) := by
  unfold EndpointKind.stripSuffix
  cases kind.suffix? with
  | none => exact h
  | some suffix =>
    intro c hc
    rw [String.toList_ofList, EndpointKind.dropSuffix] at hc
    split at hc
    · exact h c (List.mem_of_mem_take hc)
    · exact h c hc

namespace Synthesis

variable {config : Synthesis} {s : Snapshot} {store : Store}

theorem isOrdinary_object {direction : Direction} {endpoint : Endpoint} {g : Grant}
    (h : endpoint.IsOrdinary) (hg : config.classify direction endpoint = .ok (some g)) :
    IsOrdinary g.object := by
  rw [classify_eq] at hg
  split at hg
  · split at hg <;> nomatch hg
  · rename_i kind _
    obtain rfl : config.grantOf direction kind endpoint.codeAndName.2 = g := by simpa using hg
    unfold grantOf
    by_cases hstrip : config.stripSuffixes = true
    · rw [if_pos hstrip]
      exact isOrdinary_stripSuffix kind h.name
    · rw [if_neg hstrip]
      exact h.name

/-- All names that go into a policy are ordinary, and no name that comes out of
them is empty. -/
structure OrdinaryNames (config : Synthesis) (s : Snapshot) : Prop where
  subjectPrefix : IsOrdinary config.subjectPrefix
  names : ∀ name ∈ s.names, IsOrdinary name
  endpoints : ∀ r ∈ s.records, r.2.2.IsOrdinary
  subject_ne : ∀ name ∈ s.names, config.subjectPrefix ++ name ≠ ""
  object_ne : ∀ r ∈ s.records, ∀ g, config.classify r.2.1 r.2.2 = .ok (some g) → g.object ≠ ""

theorem OrdinaryNames.plainNames (h : OrdinaryNames config s) : PlainNames config s where
  subjects name hname := by
    have ordinary := isOrdinary_append.2 ⟨h.subjectPrefix, h.names name hname⟩
    exact ordinary.isPlainName (h.subject_ne name hname)
  objects subject g hg := by
    obtain ⟨name, r, hr, _, hclassify⟩ := hg
    have ordinary := isOrdinary_object (h.endpoints _ hr) hclassify
    exact ordinary.isPlainName (h.object_ne _ hr g hclassify)

/-- A policy that is derived from ordinary names answers every question about one
permission, in whatever graph it is put: what the snapshot shows is allowed, and
all else is denied. -/
theorem evaluate_grants_observed (h : OrdinaryNames config s)
    (hstore : config.synthesize s = .ok store) (subject : String) (kind : ObjectKind)
    (object : String) (v : Permission) (g : AccessGraph) (cache : Cache) :
    ∃ report left, store.evaluate.result ⟨g.connectNamed subject kind object v, cache⟩ =
        (.ok report, left) ∧
      (left.qualifier? subject kind object v = some .allow ↔
        config.Shows s subject ⟨kind, object, v⟩) ∧
      (left.qualifier? subject kind object v = some .deny ↔
        ¬ config.Shows s subject ⟨kind, object, v⟩) := by
  obtain ⟨report, left, hresult, hqualifier⟩ :=
    (h.plainNames.compiles hstore).answers g cache subject kind object v
  refine ⟨report, left, hresult, ?_, ?_⟩
  · rw [hqualifier, h.plainNames.verdict_eq hstore]
    simp
  · rw [hqualifier, h.plainNames.verdict_eq hstore]
    simp

/-- The relay may call the service that it was seen to call, and may not serve it. -/
theorem evaluate_grants_observed_relay : OrdinaryNames {} relayOnce ∧
    ∃ store, Synthesis.synthesize {} relayOnce = .ok store ∧
      (∃ report left, store.evaluate.result
          ⟨AccessGraph.empty.connectNamed "/relay" .rosService "/math/add" .rosCall,
            Cache.empty 4⟩ = (.ok report, left) ∧
        left.qualifier? "/relay" .rosService "/math/add" .rosCall = some .allow) ∧
      ∃ report left, store.evaluate.result
          ⟨AccessGraph.empty.connectNamed "/relay" .rosService "/math/add" .rosExecute,
            Cache.empty 4⟩ = (.ok report, left) ∧
        left.qualifier? "/relay" .rosService "/math/add" .rosExecute = some .deny := by
  have named : ∀ r ∈ relayOnce.records, (classify {} r.2.1 r.2.2).toOption.join.all
      (fun g => g.object != "") = true := by decide
  have ordinary : OrdinaryNames {} relayOnce := by
    refine ⟨by decide, by decide, by decide, by decide, fun r hr g hg => ?_⟩
    have nonempty := named r hr
    rw [hg] at nonempty
    exact bne_iff_ne.1 nonempty
  obtain ⟨store, hstore⟩ := exists_synthesize.2 fun r (_ : r ∈ relayOnce.records) =>
    @exists_classify {} rfl r.2.1 r.2.2
  obtain ⟨report, left, hresult, hallow, _⟩ := evaluate_grants_observed ordinary hstore "/relay"
    .rosService "/math/add" .rosCall AccessGraph.empty (Cache.empty 4)
  obtain ⟨report', left', hresult', _, hdeny⟩ := evaluate_grants_observed ordinary hstore "/relay"
    .rosService "/math/add" .rosExecute AccessGraph.empty (Cache.empty 4)
  exact ⟨ordinary, store, hstore, ⟨report, left, hresult, hallow.2 (by decide)⟩,
    report', left', hresult', hdeny.2 (by decide)⟩

end Synthesis

end Discovery

end AccessPolicy
