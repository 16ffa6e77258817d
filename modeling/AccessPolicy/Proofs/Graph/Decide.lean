import AccessPolicy.Proofs.Graph.Session

/-!
# What evaluation notes on a graph

An evaluation that answers decides every edge between a subject and an object,
whichever way it points, by the rules that govern the subject: it is denied when
a rule that denies speaks on it, else allowed when one that allows does, and else
denied (`Store.verdict`). Nodes, the ends of edges and all other edges stay as
they are, and what was noted on an edge before has no influence
(`Store.evaluate_decides`).

A run is followed by the numbers of the edges that it has decided so far
(`AccessGraph.decidedAt`). Every step decides some more and changes nothing else
(`AccessGraph.Decides`), and so does a run (`AccessGraph.decides_foldlM`).
-/

namespace AccessPolicy

open Evaluating

namespace Store

/-- A rule with the qualifier governs the subject and speaks on the permission
and the object. -/
def Speaks (s : Store) (q : Qualifier) (subject : String) (kind : ObjectKind) (object : String)
    (permission : Permission) : Prop :=
  ∃ r, s.Governs subject r ∧ r.kind = kind ∧ r.qualifier = q ∧ r.SpeaksOn object permission

open Classical in
/-- What the store says on a permission: denied where a rule denies, else allowed
where a rule allows, else denied. -/
noncomputable def verdict (s : Store) (subject : String) (kind : ObjectKind) (object : String)
    (permission : Permission) : Qualifier :=
  if s.Speaks .deny subject kind object permission then .deny
  else if s.Speaks .allow subject kind object permission then .allow
  else .deny

/-- The rules that are left for a subject speak where the rules that govern it do. -/
theorem someSpeaks_rulesOf {s policy : Store} {subject object : String} {kind : ObjectKind}
    {permission : Permission} (hpolicy : (s.filter subject).fresh = .ok policy) (q : Qualifier) :
    SomeSpeaks (policy.rulesOf kind) q object permission ↔
      s.Speaks q subject kind object permission := by
  simp only [SomeSpeaks, Speaks, mem_rulesOf_filter hpolicy]
  refine exists_congr fun r => ?_
  rw [and_assoc, and_left_comm]

/-- A resolution against what is left for a subject follows the rules that
govern it. -/
theorem follows_of_resolve {s policy : Store} {subject object : String} {kind : ObjectKind}
    {permission : Permission} {resolution : Resolution}
    (hpolicy : (s.filter subject).fresh = .ok policy)
    (h : (resolve (policy.rulesOf kind) object permission).fresh = .ok resolution) :
    resolution.Follows (s.Speaks .deny subject kind object permission)
      (s.Speaks .allow subject kind object permission) :=
  (resolve_spec h).congr (someSpeaks_rulesOf hpolicy .deny) (someSpeaks_rulesOf hpolicy .allow)

theorem verdict_of_follows {s : Store} {subject object : String} {kind : ObjectKind}
    {permission : Permission} {resolution : Resolution}
    (h : resolution.Follows (s.Speaks .deny subject kind object permission)
      (s.Speaks .allow subject kind object permission)) :
    resolution.qualifier = s.verdict subject kind object permission := by
  unfold verdict
  cases resolution with
  | explicitDeny =>
    have denied : s.Speaks .deny subject kind object permission := h
    rw [if_pos denied]
    rfl
  | explicitAllow =>
    rw [if_neg h.1, if_pos h.2]
    rfl
  | noMatch =>
    rw [if_neg h.1, if_neg h.2]
    rfl

end Store

namespace AccessGraph

/-- The subject and the object that an edge joins, whichever way it points. -/
def joined? (g : AccessGraph) (e : Edge) : Option (String × ObjectKind × String) :=
  match g.node? e.source, g.node? e.target with
  | some (.subject subject), some (.object kind object) => some (subject, kind, object)
  | some (.object kind object), some (.subject subject) => some (subject, kind, object)
  | _, _ => none

/-- The edge with what the store says noted on it, if it joins a subject and an
object. -/
noncomputable def decideEdge (g : AccessGraph) (store : Store) (e : Edge) : Edge :=
  match g.joined? e with
  | some (subject, kind, object) =>
    { e with qualifier := some (store.verdict subject kind object e.permission) }
  | none => e

/-- The graph with every edge decided. -/
noncomputable def decided (g : AccessGraph) (store : Store) : AccessGraph :=
  { g with edges := g.edges.map (g.decideEdge store) }

open Classical in
/-- The graph with those edges decided whose number is in a set. -/
noncomputable def decidedAt (g : AccessGraph) (store : Store) (noted : Nat → Prop) :
    AccessGraph :=
  { g with edges := g.edges.mapIdx fun i e => if noted i then g.decideEdge store e else e }

variable {g : AccessGraph} {store : Store}

theorem decideEdge_ends (g : AccessGraph) (store : Store) (e : Edge) :
    (g.decideEdge store e).source = e.source ∧ (g.decideEdge store e).target = e.target ∧
      (g.decideEdge store e).permission = e.permission := by
  unfold decideEdge
  split <;> exact ⟨rfl, rfl, rfl⟩

/-- Deciding edges leaves the permissions between nodes as they are. -/
theorem accesses_decidedAt (g : AccessGraph) (store : Store) (noted : Nat → Prop) (node : Nat) :
    (g.decidedAt store noted).accesses node = g.accesses node := by
  unfold accesses numberedEdges decidedAt
  rw [List.mapIdx_mapIdx, List.mapIdx_eq_zipIdx_map, List.mapIdx_eq_zipIdx_map,
    List.flatMap_map, List.flatMap_map]
  congr 1
  funext (e, i)
  show _ ++ _ = _ ++ _
  by_cases hi : noted i
  · obtain ⟨hsource, htarget, hpermission⟩ := g.decideEdge_ends store e
    simp [hi, hsource, htarget, hpermission]
  · simp [hi]

/-- What a permission between nodes says of its edge, and the other way round. -/
theorem mem_accesses {node : Nat} {a : Access} :
    a ∈ g.accesses node ↔ ∃ e, g.edges[a.edge]? = some e ∧ a.subject = node ∧
      a.permission = e.permission ∧
        ((e.source = node ∧ a.object = e.target) ∨ (e.target = node ∧ a.object = e.source)) := by
  unfold accesses numberedEdges
  rw [List.mem_flatMap]
  refine ⟨fun h => ?_, fun h => ?_⟩
  · obtain ⟨⟨i, e⟩, hpair, ha⟩ := h
    obtain ⟨j, hj, hji⟩ := List.mem_mapIdx.1 hpair
    obtain ⟨rfl, rfl⟩ : j = i ∧ g.edges[j] = e := by simpa using hji
    refine ⟨g.edges[j], ?_⟩
    rcases List.mem_append.1 ha with ha | ha
    · by_cases hsource : g.edges[j].source = node
      · obtain rfl : a = ⟨j, node, g.edges[j].target, g.edges[j].permission⟩ := by
          simpa [hsource] using ha
        exact ⟨List.getElem?_eq_getElem hj, rfl, rfl, .inl ⟨hsource, rfl⟩⟩
      · simp [hsource] at ha
    · by_cases htarget : g.edges[j].target = node
      · obtain rfl : a = ⟨j, node, g.edges[j].source, g.edges[j].permission⟩ := by
          simpa [htarget] using ha
        exact ⟨List.getElem?_eq_getElem hj, rfl, rfl, .inr ⟨htarget, rfl⟩⟩
      · simp [htarget] at ha
  · obtain ⟨edge, subject, object, permission⟩ := a
    obtain ⟨e, he, rfl, rfl, hends⟩ := h
    obtain ⟨hlt, hedge⟩ := List.getElem?_eq_some_iff.1 he
    refine ⟨(edge, e), List.mem_mapIdx.2 ⟨edge, hlt, by rw [hedge]⟩, ?_⟩
    simp only [List.mem_append]
    rcases hends with ⟨hsource, rfl⟩ | ⟨htarget, rfl⟩
    · exact .inl (by simp [hsource])
    · exact .inr (by simp [htarget])

theorem edges_decidedAt {noted : Nat → Prop} {i : Nat} (hi : noted i) :
    (g.decidedAt store noted).edges[i]? = g.edges[i]?.map (g.decideEdge store) := by
  simp [decidedAt, hi]

theorem edges_decidedAt_not {noted : Nat → Prop} {i : Nat} (hi : ¬ noted i) :
    (g.decidedAt store noted).edges[i]? = g.edges[i]? := by
  simp [decidedAt, hi]

theorem decidedAt_congr {noted later : Nat → Prop} (h : ∀ i, later i ↔ noted i) :
    g.decidedAt store noted = g.decidedAt store later := by
  rw [funext fun i => propext (h i)]

/-- Graphs with the same nodes and, number by number, the same edges are equal. -/
theorem ext_edges {g h : AccessGraph} (hnodes : g.nodes = h.nodes)
    (hedges : ∀ i : Nat, g.edges[i]? = h.edges[i]?) : g = h := by
  cases g
  cases h
  rw [AccessGraph.mk.injEq]
  exact ⟨hnodes, List.ext_getElem? hedges⟩

/-- Noting its verdict on an edge decides it. -/
theorem setQualifier_decidedAt {noted later : Nat → Prop} {i : Nat} {e : Edge}
    {subject object : String} {kind : ObjectKind} (hlater : ∀ j, later j ↔ noted j ∨ j = i)
    (he : g.edges[i]? = some e) (hjoined : g.joined? e = some (subject, kind, object)) :
    (g.decidedAt store noted).setQualifier i (store.verdict subject kind object e.permission) =
      g.decidedAt store later := by
  have decides : g.decideEdge store e =
      { e with qualifier := some (store.verdict subject kind object e.permission) } := by
    rw [decideEdge, hjoined]
  refine ext_edges rfl fun j => ?_
  show ((g.decidedAt store noted).edges.modify i _)[j]? = _
  rw [List.getElem?_modify]
  by_cases hj : j = i
  · subst hj
    rw [edges_decidedAt ((hlater j).2 (.inr rfl))]
    -- an edge that is decided again has the same verdict, whatever is noted on it
    by_cases hn : noted j
    · simp [edges_decidedAt hn, he, decides]
    · simp [edges_decidedAt_not hn, he, decides]
  · have hij : i ≠ j := fun h => hj h.symm
    by_cases hn : noted j
    · rw [edges_decidedAt hn, edges_decidedAt ((hlater j).2 (.inl hn))]
      simp [hij]
    · have hnot : ¬ later j := fun h => ((hlater j).1 h).elim hn hj
      rw [edges_decidedAt_not hn, edges_decidedAt_not hnot]
      simp [hij]

/-! ## Following a run -/

/-- The permission is one on an object. -/
def OnObject (g : AccessGraph) (a : Access) : Prop :=
  ∃ kind object, g.node? a.object = some (.object kind object)

/-- A permission of a subject on an object is the edge that joins the two. -/
theorem joined?_of_mem_accesses {node : Nat} {a : Access} {subject object : String}
    {kind : ObjectKind} (hsubject : g.node? node = some (.subject subject))
    (ha : a ∈ g.accesses node) (hobject : g.node? a.object = some (.object kind object)) :
    ∃ e, g.edges[a.edge]? = some e ∧ a.permission = e.permission ∧
      g.joined? e = some (subject, kind, object) := by
  obtain ⟨e, he, _, hpermission, hends⟩ := mem_accesses.1 ha
  refine ⟨e, he, hpermission, ?_⟩
  unfold joined?
  rcases hends with ⟨hnode, hother⟩ | ⟨hnode, hother⟩
  · rw [hnode, ← hother, hsubject, hobject]
  · rw [hnode, ← hother, hsubject, hobject]

/-- Whenever the work answers, it has decided the edges with those numbers, besides
those that were decided before, and changed nothing else. -/
def Decides (g : AccessGraph) (store : Store) (touched : Nat → Prop)
    (work : Evaluating Report) : Prop :=
  ∀ {noted : Nat → Prop} {report : Report} {left : AccessGraph},
    work.outcome (g.decidedAt store noted) = (.ok report, left) →
      left = g.decidedAt store fun i => noted i ∨ touched i

/-- Steps that decide some edges each decide all of them in a run. -/
theorem decides_foldlM {γ : Type} {f : Report → γ → Evaluating Report}
    {touched : γ → Nat → Prop} (transparent : ∀ report c, (f report c).Transparent)
    {cs : List γ} (step : ∀ c ∈ cs, ∀ report, g.Decides store (touched c) (f report c))
    (report : Report) :
    g.Decides store (fun i => ∃ c ∈ cs, touched c i) (cs.foldlM f report) := by
  intro noted report' left h
  induction cs generalizing report noted with
  | nil =>
    rw [List.foldlM_nil, outcome_pure, Prod.mk.injEq] at h
    rw [← h.2]
    exact decidedAt_congr fun i => by simp
  | cons c cs ih =>
    rw [outcome_foldlM_cons transparent] at h
    cases hfirst : (f report c).outcome (g.decidedAt store noted) with
    | mk answer mid =>
      rw [hfirst] at h
      cases answer with
      | error error => nomatch h
      | ok counted =>
        -- the others begin with the edges noted that the first step has decided
        rw [step c List.mem_cons_self report hfirst] at h
        rw [ih (fun d hd => step d (List.mem_cons_of_mem _ hd)) counted h]
        exact decidedAt_congr fun i => by simp [or_assoc]

/-- One step decides the edge of a permission on an object. -/
theorem decides_access {policy : Store} {node : Nat} {subject : String} {a : Access}
    (hpolicy : (store.filter subject).fresh = .ok policy)
    (hsubject : g.node? node = some (.subject subject)) (ha : a ∈ g.accesses node)
    (report : Report) : g.Decides store (fun i => g.OnObject a ∧ i = a.edge)
      (Store.evaluateAccess policy report a) := by
  intro noted report' left h
  by_cases hon : g.OnObject a
  · obtain ⟨kind, object, hobject⟩ := id hon
    obtain ⟨e, he, hpermission, hjoined⟩ := joined?_of_mem_accesses hsubject ha hobject
    have hobject' : (g.decidedAt store noted).node? a.object = some (.object kind object) :=
      hobject
    rw [Store.outcome_evaluateAccess hobject'] at h
    cases hres : (resolve (policy.rulesOf kind) object a.permission).fresh with
    | error error =>
      rw [hres] at h
      nomatch h
    | ok resolution =>
      rw [hres, Prod.mk.injEq] at h
      have verdict := Store.verdict_of_follows (Store.follows_of_resolve hpolicy hres)
      rw [← h.2, verdict, hpermission]
      exact setQualifier_decidedAt (fun _ => or_congr_right (and_iff_right hon)) he hjoined
  · -- an edge to another subject, or to no node, is passed over
    have other : ∀ kind object,
        (g.decidedAt store noted).node? a.object ≠ some (.object kind object) :=
      fun kind object hobject => hon ⟨kind, object, hobject⟩
    rw [Store.outcome_evaluateAccess_other other, Prod.mk.injEq] at h
    rw [← h.2]
    exact decidedAt_congr fun i => by simp [hon]

theorem mem_subjects {i : Nat} {name : String} :
    (i, name) ∈ g.subjects ↔ g.node? i = some (.subject name) := by
  unfold subjects numberedNodes
  rw [List.mem_filterMap, node?]
  refine ⟨fun h => ?_, fun h => ?_⟩
  · obtain ⟨⟨j, node⟩, hpair, hnode⟩ := h
    obtain ⟨k, hk, hkj⟩ := List.mem_mapIdx.1 hpair
    obtain ⟨rfl, rfl⟩ : k = j ∧ g.nodes[k] = node := by simpa using hkj
    cases hn : g.nodes[k] with
    | subject found =>
      rw [hn] at hnode
      obtain ⟨rfl, rfl⟩ : k = i ∧ found = name := by simpa using hnode
      rw [List.getElem?_eq_getElem hk, hn]
    | object kind found =>
      rw [hn] at hnode
      simp at hnode
  · obtain ⟨hi, hnode⟩ := List.getElem?_eq_some_iff.1 h
    exact ⟨(i, .subject name), List.mem_mapIdx.2 ⟨i, hi, by rw [hnode]⟩, rfl⟩

/-- The steps of one subject decide its edges to objects. -/
theorem decides_subject {s : Nat × String} (hs : s ∈ g.subjects) (report : Report) :
    g.Decides store (fun i => ∃ a ∈ g.accesses s.1, g.OnObject a ∧ i = a.edge)
      (Store.evaluateSubject store report s) := by
  intro noted report' left h
  rw [Store.outcome_evaluateSubject, accesses_decidedAt] at h
  cases hpolicy : (store.filter s.2).fresh with
  | error error =>
    rw [hpolicy] at h
    nomatch h
  | ok policy =>
    rw [hpolicy] at h
    exact decides_foldlM (Store.transparent_evaluateAccess policy)
      (fun a ha => decides_access hpolicy (mem_subjects.1 hs) ha) report.countSubject h

/-- Every edge between a subject and an object is the edge of a permission of
the one on the other. -/
theorem exists_access_iff {i : Nat} {e : Edge} (he : g.edges[i]? = some e) :
    (∃ s ∈ g.subjects, ∃ a ∈ g.accesses s.1, g.OnObject a ∧ i = a.edge) ↔
      (g.joined? e).isSome = true := by
  refine ⟨fun h => ?_, fun h => ?_⟩
  · obtain ⟨s, hs, a, ha, ⟨kind, object, hobject⟩, rfl⟩ := h
    obtain ⟨e', he', _, hjoined⟩ := joined?_of_mem_accesses (mem_subjects.1 hs) ha hobject
    rw [he] at he'
    injection he' with he'
    rw [he', hjoined]
    rfl
  · unfold joined? at h
    split at h
    · rename_i subject kind object hsource htarget
      refine ⟨(e.source, subject), mem_subjects.2 hsource,
        ⟨i, e.source, e.target, e.permission⟩, ?_, ⟨kind, object, htarget⟩, rfl⟩
      exact mem_accesses.2 ⟨e, he, rfl, rfl, .inl ⟨rfl, rfl⟩⟩
    · rename_i kind object subject hsource htarget
      refine ⟨(e.target, subject), mem_subjects.2 htarget,
        ⟨i, e.target, e.source, e.permission⟩, ?_, ⟨kind, object, hsource⟩, rfl⟩
      exact mem_accesses.2 ⟨e, he, rfl, rfl, .inr ⟨rfl, rfl⟩⟩
    · simp at h

theorem decidedAt_none (g : AccessGraph) (store : Store) :
    g.decidedAt store (fun _ => False) = g :=
  ext_edges rfl fun _ => edges_decidedAt_not id

/-- Where all edges between subjects and objects are decided, all edges are. -/
theorem decidedAt_joined {noted : Nat → Prop} (h : ∀ i e, g.edges[i]? = some e →
      (noted i ↔ (g.joined? e).isSome = true)) : g.decidedAt store noted = g.decided store := by
  refine ext_edges rfl fun i => ?_
  show _ = (g.edges.map (g.decideEdge store))[i]?
  rw [List.getElem?_map]
  by_cases hn : noted i
  · exact edges_decidedAt hn
  · rw [edges_decidedAt_not hn]
    cases he : g.edges[i]? with
    | none => rfl
    | some e =>
      have apart : g.joined? e = none := by
        rw [h i e he] at hn
        simpa using hn
      rw [Option.map_some, decideEdge, apart]

end AccessGraph

/-- An evaluation that answers decides every edge between a subject and an object
and leaves everything else as it is, whatever the graph and the cache were. -/
theorem Store.evaluate_decides (store : Store) (session : Session) {report : Report}
    (h : (store.evaluate.run session).1 = .ok report) :
    (store.evaluate.run session).2.graph = session.graph.decided store := by
  have transparent := store.transparent_evaluate session
  rw [Store.outcome_evaluate] at transparent
  have run : (session.graph.subjects.foldlM (Store.evaluateSubject store) Report.empty).outcome
      (session.graph.decidedAt store fun _ => False) =
        (.ok report, (store.evaluate.run session).2.graph) := by
    rw [AccessGraph.decidedAt_none, ← transparent, Evaluating.result, h]
  rw [AccessGraph.decides_foldlM store.transparent_evaluateSubject
    (fun _ hs => AccessGraph.decides_subject hs) Report.empty run]
  refine AccessGraph.decidedAt_joined fun i e he => ?_
  rw [false_or]
  exact AccessGraph.exists_access_iff he

/-- A profile that allows two topics, with a profile in it that denies one of
them. -/
def Store.nestedDenial : Store :=
  ⟨[.ofProfiles [
    { name := "robot", attachments := ["/robot*"], items := [
      .rule { kind := .topic, qualifier := .allow, attachments := ["/log*"],
              permissions := [.publish] },
      .profile { name := "arm", attachments := ["/*arm"], items := [
        .rule { kind := .topic, qualifier := .deny, attachments := ["/log_b"],
                permissions := [.publish] }] }] }]]⟩

/-- Two subjects and two objects, with an edge against the flow, one between
subjects, and a note that is out of date. -/
def AccessGraph.mixedEdges : AccessGraph where
  nodes := [.subject "/robot", .subject "/robot_arm", .object .topic "/log_a",
    .object .topic "/log_b"]
  edges := [⟨0, 2, .publish, some .deny⟩, ⟨1, 3, .publish, some .allow⟩, ⟨3, 0, .publish, none⟩,
    ⟨0, 1, .publish, none⟩]

/-- The edges of a run, with a cache that keeps one pattern. -/
theorem Store.evaluate_decides_nested :
    (nestedDenial.evaluate.run ⟨AccessGraph.mixedEdges, Cache.empty 1⟩).1 =
        .ok ⟨2, 3, 2, 1, 0⟩ ∧
      (nestedDenial.evaluate.run ⟨AccessGraph.mixedEdges, Cache.empty 1⟩).2.graph =
        AccessGraph.mixedEdges.decided nestedDenial := by
  have answers : (nestedDenial.evaluate.run ⟨AccessGraph.mixedEdges, Cache.empty 1⟩).1 =
      .ok ⟨2, 3, 2, 1, 0⟩ := ok_of_toOption (by decide +kernel)
  exact ⟨answers, evaluate_decides nestedDenial _ answers⟩

end AccessPolicy
