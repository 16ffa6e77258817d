import AccessPolicy.Proofs.Graph.Connect

/-!
# The graph of a store is exact

Adding a node or an edge that is there already adds nothing, so no graph that is
built has a node twice or two edges for one permission between the same ends
(`AccessGraph.IsSimple`). What holds of the graph without nodes and is kept when nodes
and edges are added holds of the graph of every store
(`AccessGraph.ofStore_induction`). So the graph of a store shows what its profiles
list, all of it once and nothing else (`AccessGraph.ofStore_shows`).
-/

namespace AccessPolicy

/-- The edges have the same ends, in the same direction, and the same permission. -/
def Edge.Repeats (e f : Edge) : Prop :=
  e.source = f.source ∧ e.target = f.target ∧ e.permission = f.permission

namespace AccessGraph

/-! ## Nothing twice -/

/-- No node and no edge is there twice. -/
structure IsSimple (g : AccessGraph) : Prop where
  nodes : g.nodes.Nodup
  edges : g.edges.Pairwise fun e f => ¬ e.Repeats f

theorem isSimple_empty : IsSimple empty := ⟨List.nodup_nil, List.Pairwise.nil⟩

variable {g : AccessGraph}

theorem IsSimple.addNode (h : g.IsSimple) (node : Node) : (g.addNode node).1.IsSimple := by
  unfold AccessGraph.addNode
  cases hi : g.nodeIndex? node with
  | some i => exact h
  | none =>
    have fresh : node ∉ g.nodes := List.idxOf?_eq_none_iff.1 hi
    refine ⟨List.pairwise_append.2 ⟨h.nodes, List.pairwise_singleton _ _, ?_⟩, h.edges⟩
    intro n hn m hm same
    exact fresh (List.mem_singleton.1 hm ▸ same ▸ hn)

theorem IsSimple.addEdge (h : g.IsSimple) (source target : Nat) (v : Permission) :
    (g.addEdge source target v).1.IsSimple := by
  unfold AccessGraph.addEdge
  cases hi : g.edgeIndex? source target v with
  | some i => exact h
  | none =>
    have fresh : ∀ e ∈ g.edges, ¬ e.Repeats ⟨source, target, v, none⟩ := by
      intro e he ⟨hsource, htarget, hpermission⟩
      have apart := List.findIdx?_eq_none_iff.1 hi e he
      simp [Edge.joins, hsource, htarget, hpermission] at apart
    refine ⟨h.nodes, List.pairwise_append.2 ⟨h.edges, List.pairwise_singleton _ _, ?_⟩⟩
    intro e he f hf
    rw [List.mem_singleton.1 hf]
    exact fresh e he

/-- Nothing is noted on any edge. -/
def IsUnresolved (g : AccessGraph) : Prop := ∀ e ∈ g.edges, e.qualifier = none

theorem IsUnresolved.addNode (h : g.IsUnresolved) (node : Node) :
    (g.addNode node).1.IsUnresolved := by
  unfold AccessGraph.addNode
  split <;> exact h

theorem IsUnresolved.addEdge (h : g.IsUnresolved) (source target : Nat) (v : Permission) :
    (g.addEdge source target v).1.IsUnresolved := by
  unfold AccessGraph.addEdge
  split
  · exact h
  · intro e he
    rcases List.mem_append.1 he with he | he
    · exact h e he
    · rw [List.mem_singleton.1 he]

/-! ## What every addition keeps -/

/-- What is true without nodes and stays true when nodes and edges are added is true of
the graph of a store. -/
theorem ofStore_induction {P : AccessGraph → Prop} (start : P empty)
    (node : ∀ g n, P g → P (g.addNode n).1)
    (edge : ∀ g source target v, P g → P (g.addEdge source target v).1) (s : Store) :
    P (ofStore s) := by
  have connect : ∀ g subject object v, P g → P (g.connect subject object v) := by
    intro g subject object v hg
    unfold AccessGraph.connect
    split <;> exact edge g _ _ v hg
  have grant : ∀ subject r g object, P g → P (addGrant subject r g object) :=
    fun subject r g object hg => List.foldlRecOn r.permissions _ (node g _ hg)
      fun g hg v _ => connect g _ _ v hg
  have rule : ∀ subject g r, P g → P (addRule subject g r) :=
    fun subject g r hg => List.foldlRecOn r.attachments _ hg
      fun g hg object _ => grant subject r g object hg
  have subject : ∀ rules g name, P g → P (addSubjectRules rules g name) :=
    fun rules g name hg => List.foldlRecOn rules _ (node g _ hg)
      fun g hg r _ => rule _ g r hg
  have profile : ∀ g p, P g → P (addProfile g p) :=
    fun g p hg => List.foldlRecOn p.attachments _ hg
      fun g hg name _ => subject p.rules g name hg
  exact List.foldlRecOn s.walk _ start fun g hg p _ => profile g p hg

theorem isSimple_ofStore (s : Store) : (ofStore s).IsSimple :=
  ofStore_induction isSimple_empty (fun _ n h => h.addNode n)
    (fun _ source target v h => h.addEdge source target v) s

theorem isUnresolved_ofStore (s : Store) : (ofStore s).IsUnresolved :=
  ofStore_induction (fun _ he => absurd he List.not_mem_nil) (fun _ n h => h.addNode n)
    (fun _ source target v h => h.addEdge source target v) s

end AccessGraph

/-! ## What a store lists -/

namespace Store

/-- The profile is one of the store or stands in one, at any depth. -/
def Contains (s : Store) (q : Profile) : Prop := ∃ p ∈ s.profiles, p.Contains q

theorem mem_walk_iff_contains {s : Store} {q : Profile} : q ∈ s.walk ↔ s.Contains q := by
  rw [mem_walk]
  exact exists_congr fun p => and_congr_right fun _ => Profile.mem_walk_iff_contains

/-- A profile with the subject holds a rule of the kind that lists the permission and
the object. -/
def Lists (s : Store) (subject : String) (kind : ObjectKind) (object : String)
    (v : Permission) : Prop :=
  ∃ p, s.Contains p ∧ subject ∈ p.attachments ∧ ∃ r, .rule r ∈ p.items ∧
    r.kind = kind ∧ v ∈ r.permissions ∧ object ∈ r.attachments

end Store

namespace AccessGraph

/-- The graph shows what the store lists: its nodes are the subjects and objects that
profiles name, its edges are the permissions that rules list, each the way data flows,
and nothing is there twice or has been noted on an edge. -/
structure Shows (g : AccessGraph) (s : Store) : Prop where
  subjects : ∀ name, .subject name ∈ g.nodes ↔ ∃ p, s.Contains p ∧ name ∈ p.attachments
  objects : ∀ kind name, .object kind name ∈ g.nodes ↔
    ∃ p, s.Contains p ∧ p.attachments ≠ [] ∧
      ∃ r, .rule r ∈ p.items ∧ r.kind = kind ∧ name ∈ r.attachments
  outbound : ∀ subject kind object v, g.Leads (.subject subject) (.object kind object) v ↔
    v ∈ [.publish, .call, .rosPublish, .rosCall] ∧ s.Lists subject kind object v
  inbound : ∀ subject kind object v, g.Leads (.object kind object) (.subject subject) v ↔
    v ∈ [.subscribe, .execute, .rosSubscribe, .rosExecute] ∧ s.Lists subject kind object v
  joins : ∀ e ∈ g.edges, ∃ subject kind object, g.joined? e = some (subject, kind, object)
  simple : g.IsSimple
  unresolved : g.IsUnresolved

theorem mem_outbound_iff {v : Permission} :
    v ∈ [.publish, .call, .rosPublish, .rosCall] ↔ v.flow = .outbound := by
  cases v <;> decide

theorem mem_inbound_iff {v : Permission} :
    v ∈ [.subscribe, .execute, .rosSubscribe, .rosExecute] ↔ v.flow = .inbound := by
  cases v <;> decide

/-- An arrow that is named leads between a subject and an object, the way data flows,
and is listed. -/
theorem exists_namesArrow_iff {s : Store} {a b : Node} {v : Permission} :
    (∃ p ∈ s.walk, NamesArrow p a b v) ↔
      ∃ subject kind object, Flows subject kind object a b v ∧ s.Lists subject kind object v := by
  refine ⟨fun h => ?_, fun h => ?_⟩
  · obtain ⟨p, hp, subject, hsubject, r, hr, object, hobject, hv, hflows⟩ := h
    exact ⟨subject, r.kind, object, hflows, p, Store.mem_walk_iff_contains.1 hp, hsubject, r,
      Profile.mem_rules.1 hr, rfl, hv, hobject⟩
  · obtain ⟨subject, kind, object, hflows, p, hp, hsubject, r, hr, rfl, hv, hobject⟩ := h
    exact ⟨p, Store.mem_walk_iff_contains.2 hp, subject, hsubject, r, Profile.mem_rules.2 hr,
      object, hobject, hv, hflows⟩

theorem leads_ofStore_iff {s : Store} {a b : Node} {v : Permission} : (ofStore s).Leads a b v ↔
    ∃ subject kind object, Flows subject kind object a b v ∧ s.Lists subject kind object v :=
  leads_ofStore.trans exists_namesArrow_iff

/-- Every edge of a store's graph joins a subject and an object. -/
theorem joined?_ofStore {s : Store} {e : Edge} (he : e ∈ (ofStore s).edges) :
    ∃ subject kind object, (ofStore s).joined? e = some (subject, kind, object) ∧
      s.Lists subject kind object e.permission := by
  obtain ⟨hsource, htarget⟩ := (ofStore_adds s).closed e he
  have leads : (ofStore s).Leads (ofStore s).nodes[e.source] (ofStore s).nodes[e.target]
      e.permission :=
    ⟨e, he, List.getElem?_eq_getElem hsource, List.getElem?_eq_getElem htarget, rfl⟩
  obtain ⟨subject, kind, object, hflows, hlists⟩ := leads_ofStore_iff.1 leads
  refine ⟨subject, kind, object, ?_, hlists⟩
  unfold joined? node?
  rw [List.getElem?_eq_getElem hsource, List.getElem?_eq_getElem htarget]
  unfold Flows at hflows
  split at hflows <;> rw [hflows.1, hflows.2]

/-- An arrow from a subject to an object is one that data takes from the subject. -/
theorem flows_subject_object {subject subject' object object' : String} {kind kind' : ObjectKind}
    {v : Permission} : Flows subject' kind' object' (.subject subject) (.object kind object) v ↔
      v.flow = .outbound ∧ subject' = subject ∧ kind' = kind ∧ object' = object := by
  unfold Flows
  cases v.flow <;> simp [eq_comm]

/-- An arrow from an object to a subject is one that data takes to the subject. -/
theorem flows_object_subject {subject subject' object object' : String} {kind kind' : ObjectKind}
    {v : Permission} : Flows subject' kind' object' (.object kind object) (.subject subject) v ↔
      v.flow = .inbound ∧ subject' = subject ∧ kind' = kind ∧ object' = object := by
  unfold Flows
  cases v.flow <;> simp [eq_comm, and_comm]

/-- The graph of a store shows what its profiles list. -/
theorem ofStore_shows (s : Store) : (ofStore s).Shows s where
  subjects name := by
    rw [mem_nodes_ofStore]
    refine exists_congr fun p => and_congr Store.mem_walk_iff_contains ?_
    simp [Names]
  objects kind name := by
    rw [mem_nodes_ofStore]
    refine exists_congr fun p => and_congr Store.mem_walk_iff_contains ?_
    constructor
    · rintro ⟨subject, hsubject, h⟩
      obtain ⟨r, hr, object, hobject, hn⟩ := h.resolve_left (by simp)
      injection hn with hkind hname
      exact ⟨List.ne_nil_of_mem hsubject, r, Profile.mem_rules.1 hr, hkind.symm,
        hname ▸ hobject⟩
    · rintro ⟨hsome, r, hr, hkind, hname⟩
      obtain ⟨subject, hsubject⟩ := List.exists_mem_of_ne_nil _ hsome
      exact ⟨subject, hsubject, .inr ⟨r, Profile.mem_rules.2 hr, name, hname, by rw [hkind]⟩⟩
  outbound subject kind object v := by
    rw [leads_ofStore_iff, mem_outbound_iff]
    constructor
    · rintro ⟨subject', kind', object', hflows, hlists⟩
      obtain ⟨hflow, rfl, rfl, rfl⟩ := flows_subject_object.1 hflows
      exact ⟨hflow, hlists⟩
    · rintro ⟨hflow, hlists⟩
      exact ⟨subject, kind, object, flows_subject_object.2 ⟨hflow, rfl, rfl, rfl⟩, hlists⟩
  inbound subject kind object v := by
    rw [leads_ofStore_iff, mem_inbound_iff]
    constructor
    · rintro ⟨subject', kind', object', hflows, hlists⟩
      obtain ⟨hflow, rfl, rfl, rfl⟩ := flows_object_subject.1 hflows
      exact ⟨hflow, hlists⟩
    · rintro ⟨hflow, hlists⟩
      exact ⟨subject, kind, object, flows_object_subject.2 ⟨hflow, rfl, rfl, rfl⟩, hlists⟩
  joins e he := by
    obtain ⟨subject, kind, object, hjoined, _⟩ := joined?_ofStore he
    exact ⟨subject, kind, object, hjoined⟩
  simple := isSimple_ofStore s
  unresolved := isUnresolved_ofStore s

end AccessGraph

end AccessPolicy
