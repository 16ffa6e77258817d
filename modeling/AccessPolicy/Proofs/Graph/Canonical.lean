import AccessPolicy.Proofs.Graph.Build
import AccessPolicy.Proofs.Graph.Decide
import AccessPolicy.Proofs.Store.Changes

/-!
# The canonical form means the same

What a store means is the graph that is built from it and what it decides on
every graph. Both are told by attachments of rules on given terms, so a change
that keeps these keeps the meaning. Merging the rules of a store and sorting it
is such a change, if all patterns compile (`Store.merge_sort_means_same`).
-/

namespace AccessPolicy

open Pattern (AnyMatches)
open Profile (Attaches Keeps)

namespace AccessGraph

variable {change : Profile → Profile} {p : Profile}

theorem names_iff_attaches {n : Node} : Names p n ↔ ∃ subject ∈ p.attachments,
    n = .subject subject ∨ ∃ object, Attaches p.items (fun r => n = .object r.kind object) object := by
  refine exists_congr fun subject => and_congr_right fun _ => or_congr_right ?_
  refine ⟨fun ⟨r, hr, object, hobject, hn⟩ => ?_, fun ⟨object, r, hr, hn, hobject⟩ => ?_⟩
  · exact ⟨object, r, Profile.mem_rules.1 hr, hn, hobject⟩
  · exact ⟨r, Profile.mem_rules.2 hr, object, hobject, hn⟩

theorem namesArrow_iff_attaches {a b : Node} {v : Permission} : NamesArrow p a b v ↔
    ∃ subject ∈ p.attachments, ∃ object,
      Attaches p.items (fun r => v ∈ r.permissions ∧ Flows subject r.kind object a b v) object := by
  refine exists_congr fun subject => and_congr_right fun _ => ?_
  refine ⟨fun ⟨r, hr, object, hobject, h⟩ => ?_, fun ⟨object, r, hr, h, hobject⟩ => ?_⟩
  · exact ⟨object, r, Profile.mem_rules.1 hr, h, hobject⟩
  · exact ⟨r, Profile.mem_rules.2 hr, object, hobject, h⟩

theorem names_change (hk : Keeps change) (n : Node) : Names (change p) n ↔ Names p n := by
  rw [names_iff_attaches, names_iff_attaches]
  refine exists_congr fun subject => and_congr (hk.mem_attachments p subject) ?_
  refine or_congr_right (exists_congr fun object => hk.attaches p ?_ object)
  intro r r' hterms hn
  rw [hn, hterms.1]

theorem namesArrow_change (hk : Keeps change) (a b : Node) (v : Permission) :
    NamesArrow (change p) a b v ↔ NamesArrow p a b v := by
  rw [namesArrow_iff_attaches, namesArrow_iff_attaches]
  refine exists_congr fun subject => and_congr (hk.mem_attachments p subject) ?_
  refine exists_congr fun object => hk.attaches p ?_ object
  intro r r' ⟨hkind, _, _, hpermissions⟩ ⟨hv, hflows⟩
  rw [hkind] at hflows
  exact ⟨(hpermissions v).1 hv, hflows⟩

end AccessGraph

namespace Store

variable {s t : Store} {change : Profile → Profile}

theorem Changes.mem_nodes (h : Changes change s t) (hk : Keeps change) (n : Node) :
    n ∈ (AccessGraph.ofStore t).nodes ↔ n ∈ (AccessGraph.ofStore s).nodes := by
  rw [AccessGraph.mem_nodes_ofStore, AccessGraph.mem_nodes_ofStore]
  exact h.exists_walk hk fun _ => AccessGraph.names_change hk n

theorem Changes.leads (h : Changes change s t) (hk : Keeps change) (a b : Node) (v : Permission) :
    (AccessGraph.ofStore t).Leads a b v ↔ (AccessGraph.ofStore s).Leads a b v := by
  rw [AccessGraph.leads_ofStore, AccessGraph.leads_ofStore]
  exact h.exists_walk hk fun _ => AccessGraph.namesArrow_change hk a b v

/-- What a store says is told by attachments of rules on given terms. -/
theorem speaks_iff_grants {q : Qualifier} {subject object : String} {kind : ObjectKind}
    {permission : Permission} : s.Speaks q subject kind object permission ↔
      ∃ a, s.Grants subject (fun r => r.kind = kind ∧ r.qualifier = q ∧
        permission ∈ r.permissions) a ∧ AnyMatches [a] object := by
  refine ⟨fun h => ?_, fun h => ?_⟩
  · obtain ⟨r, hr, hkind, hq, hpermission, a, ha, hmatch⟩ := h
    exact ⟨a, ⟨r, hr, ⟨hkind, hq, hpermission⟩, ha⟩, a, List.mem_singleton.2 rfl, hmatch⟩
  · obtain ⟨a, ⟨r, hr, ⟨hkind, hq, hpermission⟩, ha⟩, b, hb, hmatch⟩ := h
    rw [List.mem_singleton] at hb
    exact ⟨r, hr, hkind, hq, hpermission, a, ha, hb ▸ hmatch⟩

theorem Changes.speaks (h : Changes change s t) (hk : Keeps change) (q : Qualifier)
    (subject : String) (kind : ObjectKind) (object : String) (permission : Permission) :
    t.Speaks q subject kind object permission ↔ s.Speaks q subject kind object permission := by
  rw [speaks_iff_grants, speaks_iff_grants]
  refine exists_congr fun a => and_congr_left fun _ => h.grants hk ?_ subject a
  intro r r' ⟨hkind, hqualifier, _, hpermissions⟩ ⟨hk, hq, hv⟩
  exact ⟨hkind ▸ hk, hqualifier ▸ hq, (hpermissions permission).1 hv⟩

/-- What is left of a store for a subject resolves everything if all patterns
compile. -/
theorem Compiles.resolve_answers (hs : s.Compiles) {subject : String} {policy : Store}
    (hpolicy : (s.filter subject).fresh = .ok policy) (kind : ObjectKind) (object : String)
    (permission : Permission) :
    ∃ resolution, (resolve (policy.rulesOf kind) object permission).fresh = .ok resolution := by
  rw [AccessPolicy.resolve_answers]
  intro r hr
  obtain ⟨q, hq, hrule⟩ :=
    exists_walk_of_governs ((mem_rulesOf_filter hpolicy kind r).1 hr).2
  exact hs.objects q hq r hrule

theorem Changes.alike (h : Changes change s t) (hk : Keeps change) (hs : s.Compiles) :
    Evaluating.Alike s.evaluate t.evaluate := by
  have ht := h.compiles hk hs
  refine alike_evaluate fun subject => ?_
  obtain ⟨policy, hpolicy⟩ := filter_answers hs.subjects subject
  obtain ⟨policy', hpolicy'⟩ := filter_answers ht.subjects subject
  refine ⟨policy, policy', hpolicy, hpolicy', fun kind object permission => ?_⟩
  obtain ⟨resolution, hres⟩ := hs.resolve_answers hpolicy kind object permission
  obtain ⟨resolution', hres'⟩ := ht.resolve_answers hpolicy' kind object permission
  -- the two follow the same facts, and these leave one resolution
  have follows := follows_of_resolve hpolicy hres
  have follows' := (follows_of_resolve hpolicy' hres').congr
    (h.speaks hk .deny subject kind object permission)
    (h.speaks hk .allow subject kind object permission)
  rw [follows'.unique follows] at hres'
  exact ⟨resolution, hres, hres'⟩

/-- A store whose rules are merged and that is sorted has the same graph, and
evaluates every graph in the same way, whatever the caches hold. -/
theorem merge_sort_means_same (s : Store) (hs : s.Compiles) :
    (∀ n, n ∈ (AccessGraph.ofStore s.merge.sort).nodes ↔ n ∈ (AccessGraph.ofStore s).nodes) ∧
      (∀ a b v, (AccessGraph.ofStore s.merge.sort).Leads a b v ↔
        (AccessGraph.ofStore s).Leads a b v) ∧
      ∀ g cache cache', ∃ report left,
        s.merge.sort.evaluate.result ⟨g, cache⟩ = (.ok report, left) ∧
          s.evaluate.result ⟨g, cache'⟩ = (.ok report, left) := by
  have changes := (changes_sort s.merge).comp (changes_merge s)
  have keeps := Profile.keeps_sort.comp Profile.keeps_merge
  refine ⟨changes.mem_nodes keeps, changes.leads keeps, fun g cache cache' => ?_⟩
  obtain ⟨⟨_, left⟩, hans, hans', report, rfl⟩ := changes.alike keeps hs g
  refine ⟨report, left, ?_, ?_⟩
  · rw [transparent_evaluate, hans']
  · rw [transparent_evaluate, hans]

/-- A profile with rules that are merged and items that are out of order, with a
profile in it that is changed, too. -/
def scatteredGrants : Store :=
  ⟨[.ofProfiles [
    { name := "robot", attachments := ["/robot_arm", "/robot*"], items := [
      .rule { kind := .topic, qualifier := .allow, attachments := ["/log_b"],
              permissions := [.subscribe, .publish] },
      .rule { kind := .topic, qualifier := .allow, attachments := ["/log_a", "/log_b"],
              permissions := [.publish, .subscribe] },
      .profile { name := "arm", attachments := ["/*arm"], items := [
        .rule { kind := .topic, qualifier := .deny, attachments := ["/log_b"],
                permissions := [.publish] },
        .rule { kind := .topic, qualifier := .deny, attachments := ["/log_[ab]"],
                permissions := [.publish, .publish] }] }] }]]⟩

/-- The two runs on one graph, with caches of different sizes. -/
theorem merge_sort_means_same_scattered :
    scatteredGrants.Compiles ∧ scatteredGrants.merge ≠ scatteredGrants ∧
      ∃ report left,
        scatteredGrants.merge.sort.evaluate.result ⟨AccessGraph.mixedEdges, Cache.empty 1⟩ =
            (.ok report, left) ∧
          scatteredGrants.evaluate.result ⟨AccessGraph.mixedEdges, Cache.empty 8⟩ =
            (.ok report, left) := by
  have compiles : scatteredGrants.Compiles := by decide +kernel
  refine ⟨compiles, by decide, ?_⟩
  exact (merge_sort_means_same scatteredGrants compiles).2.2 AccessGraph.mixedEdges _ _

end Store

end AccessPolicy
