import AccessPolicy.Proofs.Graph.Exact
import AccessPolicy.Proofs.Pattern.Itself

/-!
# What is allowed in the graph of a store

A node of a store's graph is named by the text of an attachment, and when the graph is
evaluated this name is matched with the patterns that the attachments are. So in a store
that only allows, an edge is allowed when a profile whose pattern matches the one name
holds a rule whose pattern matches the other (`AccessGraph.ofStore_allows`). The profile
and the rule from which the edge was made are such when their patterns match their own
text, and a pattern that does not leaves its edge denied
(`AccessGraph.ofStore_denies_group`).
-/

namespace AccessPolicy

open Evaluating
open Pattern (AnyMatches MatchesItself isWildcardName)

namespace AccessGraph

/-- The graph with nothing noted on its edges. -/
def unnoted (g : AccessGraph) : AccessGraph :=
  { g with edges := g.edges.map fun e => { e with qualifier := none } }

variable {g : AccessGraph} {store : Store}

theorem IsUnresolved.unnoted (h : g.IsUnresolved) : g.unnoted = g := by
  have same : ∀ e ∈ g.edges, { e with qualifier := none } = e := fun e he => by rw [← h e he]
  rw [AccessGraph.unnoted, List.map_congr_left same, List.map_id']

theorem unnoted_decided (g : AccessGraph) (store : Store) :
    (g.decided store).unnoted = g.unnoted := by
  have same : ∀ e, { g.decideEdge store e with qualifier := none } =
      { e with qualifier := none } := by
    intro e
    unfold decideEdge
    split <;> rfl
  simp only [unnoted, decided, List.map_map]
  exact congrArg _ (List.map_congr_left fun e _ => same e)

/-- Deciding an edge leaves what it joins. -/
theorem joined?_decided (g : AccessGraph) (store : Store) (e : Edge) :
    (g.decided store).joined? (g.decideEdge store e) = g.joined? e := by
  obtain ⟨hsource, htarget, _⟩ := g.decideEdge_ends store e
  unfold joined?
  rw [hsource, htarget]
  rfl

end AccessGraph

namespace Store

/-- No rule denies, and no profile stands in another one. -/
structure OnlyAllows (s : Store) : Prop where
  allows : ∀ p ∈ s.walk, ∀ r ∈ p.rules, r.qualifier = .allow
  flat : ∀ p ∈ s.walk, p.nested = []

theorem onlyAllows_iff {s : Store} : s.OnlyAllows ↔
    (∀ p ∈ s.walk, ∀ r ∈ p.rules, r.qualifier = .allow) ∧ ∀ p ∈ s.walk, p.nested = [] :=
  ⟨fun h => ⟨h.allows, h.flat⟩, fun h => ⟨h.1, h.2⟩⟩

instance (s : Store) : Decidable s.OnlyAllows := decidable_of_iff _ onlyAllows_iff.symm

/-- A profile for the subject holds a rule of the kind that speaks on the permission and
the object. -/
def Permits (s : Store) (subject : String) (kind : ObjectKind) (object : String)
    (v : Permission) : Prop :=
  ∃ p ∈ s.profiles, p.IsFor subject ∧ ∃ r, .rule r ∈ p.items ∧ r.kind = kind ∧
    r.SpeaksOn object v

variable {s : Store} {subject object : String} {kind : ObjectKind} {v : Permission}

theorem OnlyAllows.not_inside (h : s.OnlyAllows) {p q : Profile} (hp : p ∈ s.profiles) :
    .profile q ∉ p.items := by
  intro hq
  have inside : q ∈ p.nested := List.mem_filterMap.2 ⟨.profile q, hq, rfl⟩
  rw [h.flat p (mem_walk.2 ⟨p, hp, Profile.mem_walk.2 (.inl rfl)⟩)] at inside
  exact List.not_mem_nil inside

/-- In a store of profiles that stand in no other, all profiles are its own. -/
theorem OnlyAllows.mem_profiles (h : s.OnlyAllows) {q : Profile} (hq : s.Contains q) :
    q ∈ s.profiles := by
  obtain ⟨p, hp, hq⟩ := hq
  cases hq with
  | self => exact hp
  | inside hc => exact absurd hc (h.not_inside hp)

theorem OnlyAllows.speaks_iff (h : s.OnlyAllows) :
    s.Speaks .allow subject kind object v ↔ s.Permits subject kind object v := by
  refine ⟨fun ⟨r, ⟨p, hp, hgoverns⟩, hkind, _, hspeaks⟩ => ?_,
    fun ⟨p, hp, hfor, r, hr, hkind, hspeaks⟩ => ?_⟩
  · cases hgoverns with
    | own hfor hr => exact ⟨p, hp, hfor, r, hr, hkind, hspeaks⟩
    | within _ hq => exact absurd hq (h.not_inside hp)
  · have walked : p ∈ s.walk := mem_walk.2 ⟨p, hp, Profile.mem_walk.2 (.inl rfl)⟩
    have allows := h.allows p walked r (Profile.mem_rules.2 hr)
    exact ⟨r, ⟨p, hp, .own hfor hr⟩, hkind, allows, hspeaks⟩

theorem OnlyAllows.not_speaks_deny (h : s.OnlyAllows) :
    ¬ s.Speaks .deny subject kind object v := by
  rintro ⟨r, ⟨p, hp, hgoverns⟩, _, hdenies, _⟩
  obtain ⟨q, hq, hr⟩ := hgoverns.exists_walk
  rw [h.allows q (mem_walk.2 ⟨p, hp, hq⟩) r hr] at hdenies
  exact absurd hdenies (by decide)

open Classical in
theorem OnlyAllows.verdict_eq (h : s.OnlyAllows) : s.verdict subject kind object v =
    if s.Permits subject kind object v then .allow else .deny := by
  rw [verdict, if_neg h.not_speaks_deny]
  simp only [h.speaks_iff]

/-- What is listed is permitted when the two texts match themselves. -/
theorem OnlyAllows.permits (h : s.OnlyAllows) (hlists : s.Lists subject kind object v)
    (hsubject : MatchesItself subject) (hobject : MatchesItself object) :
    s.Permits subject kind object v := by
  obtain ⟨p, hp, hattached, r, hr, hkind, hv, hlisted⟩ := hlists
  exact ⟨p, h.mem_profiles hp, ⟨subject, hattached, hsubject⟩, r, hr, hkind, hv,
    ⟨object, hlisted, hobject⟩⟩

/-- The texts of what is listed compile with the store. -/
theorem Compiles.lists (h : s.Compiles) (hlists : s.Lists subject kind object v) :
    Pattern.Compiles subject ∧ Pattern.Compiles object := by
  obtain ⟨p, hp, hattached, r, hr, _, _, hlisted⟩ := hlists
  have walked := mem_walk_iff_contains.2 hp
  exact ⟨h.subjects p walked subject hattached,
    h.objects p walked r (Profile.mem_rules.2 hr) object hlisted⟩

/-- What is noted on an edge between a subject and an object in a store that only
allows: whether a rule permits it, as one does when both texts match themselves. -/
structure Settles (s : Store) (subject : String) (kind : ObjectKind) (object : String)
    (e : Edge) : Prop where
  listed : s.Lists subject kind object e.permission
  allowed : e.qualifier = some .allow ↔ s.Permits subject kind object e.permission
  denied : e.qualifier = some .deny ↔ ¬ s.Permits subject kind object e.permission
  itself : MatchesItself subject → MatchesItself object → e.qualifier = some .allow
  wildcards : isWildcardName subject = true → isWildcardName object = true →
    e.qualifier = some .allow

/-- An edge that is listed is settled when the verdict is noted on it. -/
theorem OnlyAllows.settles (h : s.OnlyAllows) (hcompiles : s.Compiles) {e : Edge}
    (hlists : s.Lists subject kind object e.permission)
    (hnoted : e.qualifier = some (s.verdict subject kind object e.permission)) :
    s.Settles subject kind object e := by
  have allowed : e.qualifier = some .allow ↔ s.Permits subject kind object e.permission := by
    simp [hnoted, h.verdict_eq]
  have itself : MatchesItself subject → MatchesItself object → e.qualifier = some .allow :=
    fun hsubject hobject => allowed.2 (h.permits hlists hsubject hobject)
  obtain ⟨csubject, cobject⟩ := hcompiles.lists hlists
  exact {
    listed := hlists
    allowed := allowed
    denied := by simp [hnoted, h.verdict_eq]
    itself := itself
    wildcards := fun hsubject hobject =>
      itself (Pattern.matchesItself_of_isWildcardName hsubject csubject)
        (Pattern.matchesItself_of_isWildcardName hobject cobject) }

end Store

namespace AccessGraph

/-- Evaluating the graph of a store whose patterns compile and that only allows settles
every edge, and leaves the graph as it is apart from that. -/
theorem ofStore_allows (s : Store) (hcompiles : s.Compiles) (hallows : s.OnlyAllows)
    (cache : Cache) : ∃ report left,
      s.evaluate.result ⟨ofStore s, cache⟩ = (.ok report, left) ∧ left.unnoted = ofStore s ∧
        ∀ e ∈ left.edges, ∃ subject kind object,
          left.joined? e = some (subject, kind, object) ∧ s.Settles subject kind object e := by
  obtain ⟨report, hresult⟩ := hcompiles.evaluates (ofStore s) cache
  refine ⟨report, _, hresult, ?_, ?_⟩
  · rw [unnoted_decided, (isUnresolved_ofStore s).unnoted]
  · intro noted hnoted
    obtain ⟨e, he, rfl⟩ := List.mem_map.1 hnoted
    obtain ⟨subject, kind, object, hjoined, hlists⟩ := joined?_ofStore he
    refine ⟨subject, kind, object, by rw [joined?_decided, hjoined], ?_⟩
    rw [decideEdge, hjoined]
    exact hallows.settles hcompiles hlists rfl

end AccessGraph

/-- A profile that allows a topic and a service, by texts with wildcards in them. -/
def Store.wildGrants : Store :=
  ⟨[.ofProfiles [
    { name := "robot", attachments := ["/robot*", "/**"], items := [
      .rule { kind := .topic, qualifier := .allow, attachments := ["/log_?"],
              permissions := [.publish, .subscribe] },
      .rule { kind := .service, qualifier := .allow, attachments := ["/get_*"],
              permissions := [.call] }] }]]⟩

/-- The edges of such a store, with a cache that keeps one pattern. -/
theorem AccessGraph.ofStore_allows_wildcards :
    Store.wildGrants.Compiles ∧ Store.wildGrants.OnlyAllows ∧ ∃ report left,
      Store.wildGrants.evaluate.result ⟨ofStore Store.wildGrants, Cache.empty 1⟩ =
          (.ok report, left) ∧
        left.unnoted = ofStore Store.wildGrants ∧
        ∀ e ∈ left.edges, ∃ subject kind object,
          left.joined? e = some (subject, kind, object) ∧
            Store.wildGrants.Settles subject kind object e := by
  have compiles : Store.wildGrants.Compiles := by decide +kernel
  have allows : Store.wildGrants.OnlyAllows := by decide
  exact ⟨compiles, allows, ofStore_allows Store.wildGrants compiles allows (Cache.empty 1)⟩

/-- A profile that allows two topics by one text, which is the name of neither. -/
def Store.groupGrant : Store :=
  ⟨[.ofProfiles [
    { name := "robot", attachments := ["/robot"], items := [
      .rule { kind := .topic, qualifier := .allow, attachments := ["/log_\x7ba,b\x7d"],
              permissions := [.publish] }] }]]⟩

/-- A group does not match the text that writes it, so the edge to it is denied. -/
theorem AccessGraph.ofStore_denies_group :
    Store.groupGrant.Compiles ∧ Store.groupGrant.OnlyAllows ∧
      (ofStore Store.groupGrant).evaluate Store.groupGrant =
        (.ok ⟨1, 1, 0, 1, 1⟩, ⟨[.subject "/robot", .object .topic "/log_\x7ba,b\x7d"],
          [⟨0, 1, .publish, some .deny⟩]⟩) := by
  have compiles : Store.groupGrant.Compiles := by decide +kernel
  have allows : Store.groupGrant.OnlyAllows := by decide
  have answers : ((ofStore Store.groupGrant).evaluate Store.groupGrant).1 =
      .ok ⟨1, 1, 0, 1, 1⟩ := ok_of_toOption (by decide +kernel)
  have left : ((ofStore Store.groupGrant).evaluate Store.groupGrant).2 =
      ⟨[.subject "/robot", .object .topic "/log_\x7ba,b\x7d"],
        [⟨0, 1, .publish, some .deny⟩]⟩ := by decide +kernel
  exact ⟨compiles, allows, Prod.ext answers left⟩

end AccessPolicy
