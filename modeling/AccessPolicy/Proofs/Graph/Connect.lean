import AccessPolicy.Proofs.Graph.Build
import AccessPolicy.Proofs.Graph.Canonical

/-!
# Asking about one permission

Whether a subject has a permission on an object is asked by connecting the two in
a graph and evaluating it (`AccessGraph.connectNamed`). The question has an answer
when all patterns of the store compile (`Store.Compiles.evaluates`), and the answer
is the verdict of the store, whatever else the graph holds
(`Store.Compiles.answers`).
-/

namespace AccessPolicy

open Evaluating

namespace AccessGraph

/-- The graph with a subject and an object in it that a permission connects. -/
def connectNamed (g : AccessGraph) (subject : String) (kind : ObjectKind) (object : String)
    (permission : Permission) : AccessGraph :=
  let (g, s) := g.addSubject subject
  let (g, o) := g.addObject kind object
  g.connect s o permission

variable {g : AccessGraph} {store : Store}

/-! ## What is added is found -/

theorem nodeIndex?_addNode (g : AccessGraph) (node : Node) :
    (g.addNode node).1.nodeIndex? node = some (g.addNode node).2 := by
  unfold addNode
  cases hi : g.nodeIndex? node with
  | some i => exact hi
  | none =>
    have fresh : node ∉ g.nodes := List.idxOf?_eq_none_iff.1 hi
    show (g.nodes ++ [node]).idxOf? node = some g.nodes.length
    rw [List.idxOf?_eq_some_iff]
    refine ⟨by simp, by simp, fun j hj => ?_⟩
    rw [List.getElem_append_left hj]
    intro same
    exact fresh (same ▸ List.getElem_mem hj)

/-- A node that is there is found under its number when another one is added. -/
theorem nodeIndex?_addNode_of_some {node : Node} {i : Nat} (h : g.nodeIndex? node = some i)
    (other : Node) : (g.addNode other).1.nodeIndex? node = some i := by
  unfold addNode
  cases g.nodeIndex? other with
  | some j => exact h
  | none =>
    obtain ⟨hi, hnode, first⟩ := List.idxOf?_eq_some_iff.1 h
    show (g.nodes ++ [other]).idxOf? node = some i
    rw [List.idxOf?_eq_some_iff]
    refine ⟨by rw [List.length_append]; omega, ?_, fun j hj => ?_⟩
    · rw [List.getElem_append_left hi, hnode]
    · rw [List.getElem_append_left (by omega)]
      exact first j hj

theorem hasEdge_addEdge (g : AccessGraph) (source target : Nat) (v : Permission) :
    (g.addEdge source target v).1.hasEdge source target v = true := by
  unfold addEdge hasEdge
  cases hi : g.edgeIndex? source target v with
  | some i =>
    show (g.edgeIndex? source target v).isSome = true
    rw [hi]
    rfl
  | none =>
    rw [edgeIndex?, List.findIdx?_isSome]
    simp [Edge.joins]

@[simp] theorem nodes_connect (g : AccessGraph) (s o : Nat) (v : Permission) :
    (g.connect s o v).nodes = g.nodes := by
  have kept : ∀ source target, (g.addEdge source target v).1.nodes = g.nodes := by
    intro source target
    unfold addEdge
    split <;> rfl
  unfold connect
  split
  · exact kept s o
  · exact kept o s

/-- The edge between a subject and an object that is looked at. -/
def edgeBetween? (g : AccessGraph) (s o : Nat) (v : Permission) : Option Nat :=
  (g.edgeIndex? s o v).or (g.edgeIndex? o s v)

/-- Whichever way data flows, there is an edge to look at. -/
theorem isSome_edgeBetween?_connect (g : AccessGraph) (s o : Nat) (v : Permission) :
    ((g.connect s o v).edgeBetween? s o v).isSome = true := by
  rw [edgeBetween?, Option.isSome_or, Bool.or_eq_true]
  unfold connect
  cases v.flow with
  | outbound => exact .inl (hasEdge_addEdge g s o v)
  | inbound => exact .inr (hasEdge_addEdge g o s v)

/-- The subject, the object and an edge between them are found in the graph. -/
def Asks (g : AccessGraph) (subject : String) (kind : ObjectKind) (object : String)
    (v : Permission) : Prop :=
  ∃ s o, g.subject? subject = some s ∧ g.object? kind object = some o ∧
    (g.edgeBetween? s o v).isSome = true

theorem asks_connectNamed (g : AccessGraph) (subject : String) (kind : ObjectKind)
    (object : String) (v : Permission) :
    (g.connectNamed subject kind object v).Asks subject kind object v := by
  -- adding the object leaves the subject under its number
  have hs := nodeIndex?_addNode_of_some (nodeIndex?_addNode g (.subject subject))
    (.object kind object)
  have ho := nodeIndex?_addNode (g.addNode (.subject subject)).1 (.object kind object)
  have found : ∀ {i : Nat} {node : Node},
      ((g.addNode (.subject subject)).1.addNode (.object kind object)).1.nodeIndex? node = some i →
        (g.connectNamed subject kind object v).nodeIndex? node = some i := by
    intro i node h
    show (AccessGraph.connect _ _ _ v).nodes.idxOf? node = some i
    rw [nodes_connect]
    exact h
  exact ⟨_, _, found hs, found ho, isSome_edgeBetween?_connect _ _ _ v⟩

/-! ## What is decided -/

theorem edgeIndex?_decided (s o : Nat) (v : Permission) :
    (g.decided store).edgeIndex? s o v = g.edgeIndex? s o v := by
  have joins : (fun e => (g.decideEdge store e).joins s o v) = fun e : Edge => e.joins s o v := by
    funext e
    obtain ⟨hsource, htarget, hpermission⟩ := g.decideEdge_ends store e
    rw [Edge.joins, Edge.joins, hsource, htarget, hpermission]
  show (g.edges.map (g.decideEdge store)).findIdx? _ = g.edges.findIdx? _
  rw [List.findIdx?_map]
  exact congrArg (fun f => g.edges.findIdx? f) joins

/-- An edge that is found between a subject and an object joins them. -/
theorem joined?_of_edgeBetween? {s o i : Nat} {subject object : String} {kind : ObjectKind}
    {v : Permission} (hs : g.node? s = some (.subject subject))
    (ho : g.node? o = some (.object kind object)) (hi : g.edgeBetween? s o v = some i) :
    ∃ e, g.edge? i = some e ∧ e.permission = v ∧
      g.joined? e = some (subject, kind, object) := by
  have found : ∀ {a b : Nat}, g.edgeIndex? a b v = some i →
      ∃ e, g.edge? i = some e ∧ e.permission = v ∧ e.source = a ∧ e.target = b := by
    intro a b h
    obtain ⟨hlt, hjoins, _⟩ := List.findIdx?_eq_some_iff_getElem.1 h
    simp only [Edge.joins, Bool.and_eq_true, beq_iff_eq] at hjoins
    obtain ⟨⟨hsource, htarget⟩, hpermission⟩ := hjoins
    exact ⟨g.edges[i], List.getElem?_eq_getElem hlt, hpermission, hsource, htarget⟩
  unfold joined?
  rcases Option.or_eq_some_iff.1 hi with h | ⟨_, h⟩
  · obtain ⟨e, he, hv, hsource, htarget⟩ := found h
    refine ⟨e, he, hv, ?_⟩
    rw [hsource, htarget, hs, ho]
  · obtain ⟨e, he, hv, hsource, htarget⟩ := found h
    refine ⟨e, he, hv, ?_⟩
    rw [hsource, htarget, hs, ho]

/-- In a graph that is decided the verdict is found. -/
theorem qualifier?_decided {subject object : String} {kind : ObjectKind} {v : Permission}
    (h : g.Asks subject kind object v) :
    (g.decided store).qualifier? subject kind object v =
      some (store.verdict subject kind object v) := by
  obtain ⟨s, o, hs, ho, hedge⟩ := h
  obtain ⟨i, hi⟩ := Option.isSome_iff_exists.1 hedge
  obtain ⟨e, he, hv, hjoined⟩ :=
    joined?_of_edgeBetween? (node?_of_nodeIndex? hs) (node?_of_nodeIndex? ho) hi
  have decides : (g.decided store).edge? i =
      some { e with qualifier := some (store.verdict subject kind object v) } := by
    show (g.edges.map (g.decideEdge store))[i]? = _
    rw [List.getElem?_map]
    show (g.edge? i).map _ = _
    rw [he, Option.map_some, decideEdge, hjoined, ← hv]
  have hs' : (g.decided store).subject? subject = some s := hs
  have ho' : (g.decided store).object? kind object = some o := ho
  have hi' : ((g.decided store).edgeIndex? s o v).or ((g.decided store).edgeIndex? o s v) =
      some i := by
    rw [edgeIndex?_decided, edgeIndex?_decided]
    exact hi
  rw [qualifier?, hs', ho']
  show (((g.decided store).edgeIndex? s o v).or _).bind _ = _
  rw [hi']
  show ((g.decided store).edge? i).bind _ = _
  rw [decides]
  rfl

end AccessGraph

namespace Store

variable {store : Store}

/-- An evaluation that answers leaves the graph decided. -/
theorem decided_of_outcome {g left : AccessGraph} {report : Report}
    (h : store.evaluate.outcome g = (.ok report, left)) : left = g.decided store := by
  have run : (g.subjects.foldlM (evaluateSubject store) Report.empty).outcome
      (g.decidedAt store fun _ => False) = (.ok report, left) := by
    rw [AccessGraph.decidedAt_none, ← outcome_evaluate, h]
  rw [AccessGraph.decides_foldlM store.transparent_evaluateSubject
    (fun _ hs => AccessGraph.decides_subject hs) Report.empty run]
  refine AccessGraph.decidedAt_joined fun i e he => ?_
  rw [false_or]
  exact AccessGraph.exists_access_iff he

/-- A store whose patterns compile evaluates every graph, whatever the cache
holds. -/
theorem Compiles.evaluates (h : store.Compiles) (g : AccessGraph) (cache : Cache) :
    ∃ report, store.evaluate.result ⟨g, cache⟩ = (.ok report, g.decided store) := by
  have unchanged : Changes id store store := fun q => by simp
  have keeps : Profile.Keeps id := ⟨fun _ _ => Iff.rfl, fun _ _ _ _ => Iff.rfl, fun p q => by simp⟩
  obtain ⟨⟨_, left⟩, houtcome, _, report, rfl⟩ := unchanged.alike keeps h g
  refine ⟨report, ?_⟩
  rw [transparent_evaluate, houtcome, decided_of_outcome houtcome]

/-- Connecting a subject and an object in a graph and evaluating it tells the
verdict on the permission. -/
theorem Compiles.answers (h : store.Compiles) (g : AccessGraph) (cache : Cache)
    (subject : String) (kind : ObjectKind) (object : String) (v : Permission) :
    ∃ report left, store.evaluate.result ⟨g.connectNamed subject kind object v, cache⟩ =
        (.ok report, left) ∧
      left.qualifier? subject kind object v = some (store.verdict subject kind object v) := by
  obtain ⟨report, hresult⟩ := h.evaluates (g.connectNamed subject kind object v) cache
  have asks := g.asks_connectNamed subject kind object v
  exact ⟨report, _, hresult, AccessGraph.qualifier?_decided asks⟩

end Store

end AccessPolicy
