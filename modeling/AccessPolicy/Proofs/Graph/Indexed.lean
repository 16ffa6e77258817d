import AccessPolicy.Graph.Indexed
import AccessPolicy.Proofs.Graph.Build
import AccessPolicy.Proofs.Graph.Decide
import AccessPolicy.Proofs.Graph.Shape
import Mathlib.Logic.Relation

/-!
# Indexes agree with the graph

An index numbers a list when it holds, under the key of each member that has one, the
number of that member, and nothing else (`Numbers`). Appending a member keeps this if its
number is put into the index, or if it has no key for it, and members may change in all
but their keys. So the three indexes of a graph number its subjects, its objects and its
edges (`IndexedGraph.IsIndexed`) behind every call, and behind every run of calls
(`IndexedGraph.isIndexed_of_reaches`). What the indexes say of such a graph, and what stays
true of it in any later one, is `IndexedGraph.represents_of_reaches`.

Lookups in an index then answer what looking through the graph answers, so an indexed graph
is built, changed and asked like one without indexes (`IndexedGraph.toAccessGraph_ofStore`).
-/

namespace AccessPolicy

/-! ## Indexes of lists -/

section Numbers

variable {κ α : Type} {xs ys : List α} {key? : α → Option κ} {x : α} {k : κ}

theorem bind_getElem?_append (xs : List α) (x : α) (i : Nat) : (xs ++ [x])[i]?.bind key? = some k ↔
    xs[i]?.bind key? = some k ∨ i = xs.length ∧ key? x = some k := by
  rcases Nat.lt_trichotomy i xs.length with h | rfl | h
  · rw [List.getElem?_append_left h]
    simp [Nat.ne_of_lt h]
  · simp
  · rw [List.getElem?_eq_none (by simp; omega), List.getElem?_eq_none (by omega)]
    simp [Nat.ne_of_gt h]

variable [BEq κ] [Hashable κ] {index : Std.HashMap κ Nat}

/-- The index has the number of each member of the list that has a key, under its key, and
nothing else. -/
structure Numbers (index : Std.HashMap κ Nat) (xs : List α) (key? : α → Option κ) : Prop where
  getElem?_iff : ∀ k i, index[k]? = some i ↔ xs[i]?.bind key? = some k
  size : index.size = (xs.filterMap key?).length

theorem numbers_empty [LawfulBEq κ] : Numbers ({} : Std.HashMap κ Nat) ([] : List α) key? where
  getElem?_iff k i := by simp
  size := by simp

/-- A member without a key is not numbered. -/
theorem Numbers.skip (h : Numbers index xs key?) (hx : key? x = none) :
    Numbers index (xs ++ [x]) key? where
  getElem?_iff k i := by
    rw [h.getElem?_iff, bind_getElem?_append]
    simp [hx]
  size := by
    rw [h.size, List.filterMap_append]
    simp [hx]

/-- A member with a new key is numbered by its place. -/
theorem Numbers.push [LawfulBEq κ] (h : Numbers index xs key?) (hx : key? x = some k)
    (hk : index[k]? = none) : Numbers (index.insert k xs.length) (xs ++ [x]) key? where
  getElem?_iff l i := by
    rw [Std.HashMap.getElem?_insert, bind_getElem?_append, ← h.getElem?_iff, hx]
    by_cases hkl : k = l
    · -- no member had the key, so the new one is the only one that has it
      subst hkl
      simp [hk, eq_comm]
    · simp [hkl]
  size := by
    have fresh : k ∉ index := by simp [← Std.HashMap.isSome_getElem?_iff_mem, hk]
    rw [Std.HashMap.size_insert, if_neg fresh, h.size, List.filterMap_append]
    simp [hx]

/-- Only the keys of the members matter. -/
theorem Numbers.congr (h : Numbers index xs key?) (same : ys.map key? = xs.map key?) :
    Numbers index ys key? where
  getElem?_iff k i := by
    have key := congrArg (fun keys : List (Option κ) => keys[i]?) same
    simp only [List.getElem?_map] at key
    have keyOf : ∀ o : Option α, o.bind key? = (o.map key?).bind id := by
      intro o
      cases o <;> rfl
    rw [h.getElem?_iff, keyOf, keyOf ys[i]?, key]
  size := by
    have keys : ∀ zs : List α, zs.filterMap key? = (zs.map key?).filterMap id :=
      fun zs => by simp
    rw [h.size, keys, keys ys, same]

/-- Members with one key have one number. -/
theorem Numbers.unique (h : Numbers index xs key?) {i j : Nat} (hi : xs[i]?.bind key? = some k)
    (hj : xs[j]?.bind key? = some k) : i = j := by
  rw [← h.getElem?_iff] at hi hj
  exact Option.some.inj (hi.symm.trans hj)

end Numbers

/-! ## The indexes of a graph -/

/-- The name of a node that is a subject. -/
def Node.subjectName? : Node → Option String
  | subject name => some name
  | object _ _ => none

/-- The kind and the name of a node that is an object. -/
def Node.objectKey? : Node → Option (ObjectKind × String)
  | subject _ => none
  | object kind name => some (kind, name)

theorem Node.bind_subjectName? {n? : Option Node} {name : String} :
    n?.bind subjectName? = some name ↔ n? = some (.subject name) := by
  rcases n? with _ | (name' | ⟨kind, name'⟩) <;> simp [subjectName?]

theorem Node.bind_objectKey? {n? : Option Node} {kind : ObjectKind} {name : String} :
    n?.bind objectKey? = some (kind, name) ↔ n? = some (.object kind name) := by
  rcases n? with _ | (name' | ⟨kind', name'⟩) <;> simp [objectKey?]

namespace IndexedGraph

/-- The indexes have the numbers of all subjects, objects and edges, and all edges join
nodes. -/
structure IsIndexed (g : IndexedGraph) : Prop where
  subjects : Numbers g.subjectNumbers g.nodes Node.subjectName?
  objects : Numbers g.objectNumbers g.nodes Node.objectKey?
  edges : Numbers g.edgeNumbers g.edges fun e => some e.key
  closed : g.IsClosed

theorem isIndexed_empty : IsIndexed empty :=
  ⟨numbers_empty, numbers_empty, numbers_empty, fun _ he => absurd he List.not_mem_nil⟩

variable {g h : IndexedGraph}

theorem isClosed_append_node (hg : g.IsClosed) (node : Node) :
    AccessGraph.IsClosed { g.toAccessGraph with nodes := g.nodes ++ [node] } := by
  intro e he
  have := hg e he
  rw [List.length_append, List.length_singleton]
  omega

theorem IsIndexed.addSubject (hg : g.IsIndexed) (name : String) :
    (g.addSubject name).1.IsIndexed := by
  unfold IndexedGraph.addSubject
  cases hi : g.subject? name with
  | some i => exact hg
  | none => exact ⟨hg.subjects.push rfl hi, hg.objects.skip rfl, hg.edges,
      isClosed_append_node hg.closed _⟩

theorem IsIndexed.addObject (hg : g.IsIndexed) (kind : ObjectKind) (name : String) :
    (g.addObject kind name).1.IsIndexed := by
  unfold IndexedGraph.addObject
  cases hi : g.object? kind name with
  | some i => exact hg
  | none => exact ⟨hg.subjects.skip rfl, hg.objects.push rfl hi, hg.edges,
      isClosed_append_node hg.closed _⟩

theorem IsIndexed.addEdge (hg : g.IsIndexed) {source target : Nat} (v : Permission)
    (hsource : source < g.nodeCount) (htarget : target < g.nodeCount) :
    (g.addEdge source target v).1.IsIndexed := by
  unfold IndexedGraph.addEdge
  cases hi : g.edgeIndex? source target v with
  | some i => exact hg
  | none =>
    refine ⟨hg.subjects, hg.objects, hg.edges.push rfl hi, fun e he => ?_⟩
    rcases List.mem_append.1 he with he | he
    · exact hg.closed e he
    · rw [List.mem_singleton.1 he]
      exact ⟨hsource, htarget⟩

theorem IsIndexed.connect (hg : g.IsIndexed) {subject object : Nat} (v : Permission)
    (hsubject : subject < g.nodeCount) (hobject : object < g.nodeCount) :
    (g.connect subject object v).IsIndexed := by
  unfold IndexedGraph.connect
  cases v.flow with
  | outbound => exact hg.addEdge v hsubject hobject
  | inbound => exact hg.addEdge v hobject hsubject

/-- A graph of the same shape is numbered by the same indexes. -/
theorem IsIndexed.of_sameShape (hg : g.IsIndexed) {a : AccessGraph}
    (same : g.toAccessGraph.SameShape a) : IsIndexed { g with toAccessGraph := a } := by
  have keys : a.edges.map (fun e => some e.key) = g.edges.map fun e => some e.key := by
    have := congrArg (List.map some) same.edges
    simpa only [List.map_map, Function.comp_def] using this
  have ends : ∀ x ∈ a.edges.map Edge.key, x.1 < g.nodes.length ∧ x.2.1 < g.nodes.length := by
    rw [same.edges]
    exact List.forall_mem_map.2 hg.closed
  refine ⟨?_, ?_, hg.edges.congr keys, fun e he => ?_⟩
  · exact hg.subjects.congr (by rw [same.nodes])
  · exact hg.objects.congr (by rw [same.nodes])
  · show e.source < a.nodes.length ∧ e.target < a.nodes.length
    rw [same.nodes]
    exact ends e.key (List.mem_map_of_mem he)

theorem IsIndexed.setQualifier (hg : g.IsIndexed) (edge : Nat) (q : Qualifier) :
    (g.setQualifier edge q).IsIndexed :=
  hg.of_sameShape (g.toAccessGraph.sameShape_setQualifier edge q)

theorem IsIndexed.evaluate (hg : g.IsIndexed) (store : Store) (cache : Cache) :
    (g.evaluate store cache).2.1.IsIndexed :=
  hg.of_sameShape (store.sameShape_evaluate ⟨g.toAccessGraph, cache⟩)

/-! ## What the indexes say -/

/-- The indexes and the lists of the graph say the same, no two nodes and no two edges have
one key, and every edge is among the accesses of the subjects that it joins. -/
structure Represents (g : IndexedGraph) : Prop where
  subjects : ∀ name i, g.subject? name = some i ↔ g.node? i = some (.subject name)
  objects : ∀ kind name i, g.object? kind name = some i ↔ g.node? i = some (.object kind name)
  edges : ∀ source target v i, g.edgeIndex? source target v = some i ↔
    (g.edge? i).map Edge.key = some (source, target, v)
  nodesApart : ∀ i j n, g.node? i = some n → g.node? j = some n → i = j
  edgesApart : ∀ i j e f, g.edge? i = some e → g.edge? j = some f → e.key = f.key → i = j
  counts : g.nodeCount = g.subjectCount + g.objectCount
  accesses : ∀ i e s name, g.edge? i = some e → g.node? s = some (.subject name) →
    (e.source = s → ⟨i, s, e.target, e.permission⟩ ∈ g.accesses s) ∧
      (e.target = s → ⟨i, s, e.source, e.permission⟩ ∈ g.accesses s)

theorem IsIndexed.subject?_iff (hg : g.IsIndexed) (name : String) (i : Nat) :
    g.subject? name = some i ↔ g.node? i = some (.subject name) := by
  rw [← Node.bind_subjectName?]
  exact hg.subjects.getElem?_iff name i

theorem IsIndexed.object?_iff (hg : g.IsIndexed) (kind : ObjectKind) (name : String) (i : Nat) :
    g.object? kind name = some i ↔ g.node? i = some (.object kind name) := by
  rw [← Node.bind_objectKey?]
  exact hg.objects.getElem?_iff (kind, name) i

theorem IsIndexed.edgeIndex?_iff (hg : g.IsIndexed) (source target : Nat) (v : Permission)
    (i : Nat) : g.edgeIndex? source target v = some i ↔
      (g.edge? i).map Edge.key = some (source, target, v) := by
  rw [Option.map_eq_bind]
  exact hg.edges.getElem?_iff (source, target, v) i

/-- Every node is a subject or an object. -/
theorem length_subjects_objects (nodes : List Node) :
    (nodes.filterMap Node.subjectName?).length + (nodes.filterMap Node.objectKey?).length =
      nodes.length := by
  induction nodes with
  | nil => rfl
  | cons n nodes ih =>
    cases n with
    | subject name =>
      simp only [List.filterMap_cons, Node.subjectName?, Node.objectKey?, List.length_cons]
      omega
    | object kind name =>
      simp only [List.filterMap_cons, Node.subjectName?, Node.objectKey?, List.length_cons]
      omega

theorem IsIndexed.represents (hg : g.IsIndexed) : g.Represents where
  subjects := hg.subject?_iff
  objects := hg.object?_iff
  edges := hg.edgeIndex?_iff
  nodesApart i j n hi hj := by
    cases n with
    | subject name =>
      rw [← hg.subject?_iff] at hi hj
      exact Option.some.inj (hi.symm.trans hj)
    | object kind name =>
      rw [← hg.object?_iff] at hi hj
      exact Option.some.inj (hi.symm.trans hj)
  edgesApart i j e f hi hj hkey := by
    have numbered : ∀ {k e'}, g.edge? k = some e' → e'.key = f.key →
        g.edges[k]?.bind (fun e => some e.key) = some f.key := by
      intro k e' hk hkey
      show (g.edge? k).bind _ = _
      rw [hk, Option.bind_some, hkey]
    exact hg.edges.unique (numbered hi hkey) (numbered hj rfl)
  counts := by
    rw [nodeCount, subjectCount, objectCount, hg.subjects.size, hg.objects.size,
      length_subjects_objects]
  accesses i e s name he _ := by
    constructor
    · exact fun hsource => AccessGraph.mem_accesses.2 ⟨e, he, rfl, rfl, .inl ⟨hsource, rfl⟩⟩
    · exact fun htarget => AccessGraph.mem_accesses.2 ⟨e, he, rfl, rfl, .inr ⟨htarget, rfl⟩⟩

/-! ## What a call hands out -/

/-- The number that is handed out for an addition denotes what is added. -/
structure HandsOut (g : IndexedGraph) : Prop where
  subject : ∀ name, (g.addSubject name).1.node? (g.addSubject name).2 = some (.subject name)
  object : ∀ kind name,
    (g.addObject kind name).1.node? (g.addObject kind name).2 = some (.object kind name)
  edge : ∀ source target v,
    ((g.addEdge source target v).1.edge? (g.addEdge source target v).2).map Edge.key =
      some (source, target, v)

theorem IsIndexed.handsOut (hg : g.IsIndexed) : g.HandsOut where
  subject name := by
    unfold IndexedGraph.addSubject
    cases hi : g.subject? name with
    | some i => exact (hg.subject?_iff name i).1 hi
    | none => exact List.getElem?_concat_length
  object kind name := by
    unfold IndexedGraph.addObject
    cases hi : g.object? kind name with
    | some i => exact (hg.object?_iff kind name i).1 hi
    | none => exact List.getElem?_concat_length
  edge source target v := by
    unfold IndexedGraph.addEdge
    cases hi : g.edgeIndex? source target v with
    | some i => exact (hg.edgeIndex?_iff source target v i).1 hi
    | none => exact congrArg (Option.map Edge.key) List.getElem?_concat_length

/-- What a number denotes in the first graph it denotes in the second. -/
structure Persists (g h : IndexedGraph) : Prop where
  nodes : ∀ i n, g.node? i = some n → h.node? i = some n
  edges : ∀ i e, g.edge? i = some e → ∃ f, h.edge? i = some f ∧ f.key = e.key

theorem Persists.refl (g : IndexedGraph) : g.Persists g :=
  ⟨fun _ _ hi => hi, fun _ e hi => ⟨e, hi, rfl⟩⟩

theorem Persists.trans {k : IndexedGraph} (hgh : g.Persists h) (hhk : h.Persists k) :
    g.Persists k where
  nodes i n hi := hhk.nodes i n (hgh.nodes i n hi)
  edges i e hi := by
    obtain ⟨f, hf, hfe⟩ := hgh.edges i e hi
    obtain ⟨f', hf', hff⟩ := hhk.edges i f hf
    exact ⟨f', hf', hff.trans hfe⟩

theorem persists_append {nodes : List Node} {edges : List Edge} (hnodes : h.nodes = g.nodes ++ nodes)
    (hedges : h.edges = g.edges ++ edges) : g.Persists h where
  nodes i n hi := by
    rw [AccessGraph.node?] at hi ⊢
    rw [hnodes, List.getElem?_append_left (List.getElem?_eq_some_iff.1 hi).1, hi]
  edges i e hi := by
    refine ⟨e, ?_, rfl⟩
    rw [AccessGraph.edge?] at hi ⊢
    rw [hedges, List.getElem?_append_left (List.getElem?_eq_some_iff.1 hi).1, hi]

theorem persists_of_sameShape (same : g.toAccessGraph.SameShape h.toAccessGraph) :
    g.Persists h where
  nodes i n hi := by
    rw [AccessGraph.node?, same.nodes]
    exact hi
  edges i e hi := by
    have key := same.edge? i
    rw [hi] at key
    exact Option.map_eq_some_iff.1 key

theorem persists_addSubject (g : IndexedGraph) (name : String) :
    g.Persists (g.addSubject name).1 := by
  unfold addSubject
  cases g.subject? name with
  | some i => exact .refl g
  | none => exact persists_append rfl (List.append_nil _).symm

theorem persists_addObject (g : IndexedGraph) (kind : ObjectKind) (name : String) :
    g.Persists (g.addObject kind name).1 := by
  unfold addObject
  cases g.object? kind name with
  | some i => exact .refl g
  | none => exact persists_append rfl (List.append_nil _).symm

theorem persists_addEdge (g : IndexedGraph) (source target : Nat) (v : Permission) :
    g.Persists (g.addEdge source target v).1 := by
  unfold addEdge
  cases g.edgeIndex? source target v with
  | some i => exact .refl g
  | none => exact persists_append (List.append_nil _).symm rfl

theorem persists_connect (g : IndexedGraph) (subject object : Nat) (v : Permission) :
    g.Persists (g.connect subject object v) := by
  unfold connect
  cases v.flow with
  | outbound => exact g.persists_addEdge subject object v
  | inbound => exact g.persists_addEdge object subject v

/-! ## Runs of calls -/

/-- The second graph is the first one behind one call. Edges are added between nodes. -/
inductive Step : IndexedGraph → IndexedGraph → Prop where
  | addSubject (g : IndexedGraph) (name : String) : Step g (g.addSubject name).1
  | addObject (g : IndexedGraph) (kind : ObjectKind) (name : String) :
      Step g (g.addObject kind name).1
  | addEdge (g : IndexedGraph) {source target : Nat} (v : Permission) :
      source < g.nodeCount → target < g.nodeCount → Step g (g.addEdge source target v).1
  | connect (g : IndexedGraph) {subject object : Nat} (v : Permission) :
      subject < g.nodeCount → object < g.nodeCount → Step g (g.connect subject object v)
  | setQualifier (g : IndexedGraph) (edge : Nat) (q : Qualifier) : Step g (g.setQualifier edge q)
  | evaluate (g : IndexedGraph) (store : Store) (cache : Cache) :
      Step g (g.evaluate store cache).2.1

/-- The second graph is the first one behind any number of calls. -/
def Reaches : IndexedGraph → IndexedGraph → Prop := Relation.ReflTransGen Step

theorem Step.isIndexed (step : Step g h) (hg : g.IsIndexed) : h.IsIndexed := by
  cases step with
  | addSubject name => exact hg.addSubject name
  | addObject kind name => exact hg.addObject kind name
  | addEdge v hsource htarget => exact hg.addEdge v hsource htarget
  | connect v hsubject hobject => exact hg.connect v hsubject hobject
  | setQualifier edge q => exact hg.setQualifier edge q
  | evaluate store cache => exact hg.evaluate store cache

theorem Step.persists (step : Step g h) : g.Persists h := by
  cases step with
  | addSubject name => exact g.persists_addSubject name
  | addObject kind name => exact g.persists_addObject kind name
  | addEdge v _ _ => exact g.persists_addEdge _ _ v
  | connect v _ _ => exact g.persists_connect _ _ v
  | setQualifier edge q => exact persists_of_sameShape (g.sameShape_setQualifier edge q)
  | evaluate store cache =>
    exact persists_of_sameShape (store.sameShape_evaluate ⟨g.toAccessGraph, cache⟩)

theorem Reaches.isIndexed (run : Reaches g h) (hg : g.IsIndexed) : h.IsIndexed := by
  induction run with
  | refl => exact hg
  | tail _ step ih => exact step.isIndexed ih

theorem Reaches.persists (run : Reaches g h) : g.Persists h := by
  induction run with
  | refl => exact .refl g
  | tail _ step ih => exact ih.trans step.persists

theorem isIndexed_of_reaches (run : Reaches empty g) : g.IsIndexed :=
  run.isIndexed isIndexed_empty

/-- Whatever calls a graph has behind it, evaluations that failed among them, its indexes say
what its lists say, it hands out the number of what is added, and what a number denotes it
denotes behind all calls that follow. -/
theorem represents_of_reaches (run : Reaches empty g) :
    g.Represents ∧ g.HandsOut ∧ ∀ later, Reaches g later → g.Persists later :=
  have hg := isIndexed_of_reaches run
  ⟨hg.represents, hg.handsOut, fun _ rest => rest.persists⟩

/-- A subject and an object of one name, joined in both directions, with an edge from the
subject to itself and one to a second subject. -/
def namesakes : IndexedGraph :=
  let named := (((empty.addSubject "/a").1.addObject .topic "/a").1.addSubject "/b").1
  let joined := ((named.addEdge 0 0 .publish).1.addEdge 0 2 .publish).1
  (joined.connect 0 1 .publish).connect 0 1 .subscribe

theorem reaches_namesakes : Reaches empty namesakes := by
  have named : Reaches empty (((empty.addSubject "/a").1.addObject .topic "/a").1.addSubject
      "/b").1 :=
    .tail (.tail (.single (.addSubject _ _)) (.addObject _ _ _)) (.addSubject _ _)
  have selfJoined := named.tail (@Step.addEdge _ 0 0 .publish (by cbv) (by cbv))
  have joined := selfJoined.tail (@Step.addEdge _ 0 2 .publish (by cbv) (by cbv))
  have published := joined.tail (@Step.connect _ 0 1 .publish (by cbv) (by cbv))
  exact published.tail (@Step.connect _ 0 1 .subscribe (by cbv) (by cbv))

theorem toAccessGraph_namesakes : namesakes.toAccessGraph =
    ⟨[.subject "/a", .object .topic "/a", .subject "/b"],
      [⟨0, 0, .publish, none⟩, ⟨0, 2, .publish, none⟩, ⟨0, 1, .publish, none⟩,
        ⟨1, 0, .subscribe, none⟩]⟩ := by
  cbv

/-- A profile for one subject, with a pattern behind it that does not compile. -/
def halfBad : Store :=
  ⟨[.ofProfiles [{ name := "a", attachments := ["/a", "\x7b"], items := [
    .rule { kind := .topic, qualifier := .allow, attachments := ["/a"],
            permissions := [.publish] }] }]]⟩

/-- An evaluation that stops at the second subject and has noted something on the edges of
the first. -/
theorem represents_of_reaches_namesakes :
    let later := (namesakes.evaluate halfBad (Cache.empty 1)).2.1
    Reaches empty namesakes ∧ Reaches namesakes later ∧
      (namesakes.evaluate halfBad (Cache.empty 1)).1.isOk = false ∧
      later.edge? 2 = some ⟨0, 1, .publish, some .allow⟩ ∧
      namesakes.Represents ∧ namesakes.HandsOut ∧ namesakes.Persists later := by
  intro later
  have next : Reaches namesakes later := .single (.evaluate _ _ _)
  obtain ⟨represents, handsOut, persists⟩ := represents_of_reaches reaches_namesakes
  have stops : (halfBad.evaluate.run ⟨namesakes.toAccessGraph, Cache.empty 1⟩).1.isOk = false ∧
      (halfBad.evaluate.run ⟨namesakes.toAccessGraph, Cache.empty 1⟩).2.graph.edge? 2 =
        some ⟨0, 1, .publish, some .allow⟩ := by
    rw [toAccessGraph_namesakes]
    decide +kernel
  exact ⟨reaches_namesakes, next, stops.1, stops.2, represents, handsOut, persists later next⟩

end IndexedGraph

end AccessPolicy
