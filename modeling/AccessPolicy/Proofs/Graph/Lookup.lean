import AccessPolicy.Proofs.Graph.Indexed

/-!
# Indexes instead of searches

Where the indexes of a graph agree with its lists, asking an index answers what a search
through the lists answers. So an indexed graph is asked and changed like the graph without
its indexes (`IndexedGraph.IsIndexed.qualifier?_eq`, `IndexedGraph.IsIndexed.addSubject_eq`
and the like), and the indexed graph of a store is the graph of the store, with indexes
(`IndexedGraph.toAccessGraph_ofStore`).
-/

namespace AccessPolicy

namespace IndexedGraph

variable {g : IndexedGraph} {store : Store}

/-! ## Asking -/

/-- A search finds the number under which a node is known, if it is known under no other. -/
theorem nodeIndex?_eq {a : AccessGraph} {n : Node} {found : Option Nat}
    (h : ∀ i, found = some i ↔ a.node? i = some n) : found = a.nodeIndex? n := by
  cases hsearch : a.nodeIndex? n with
  | some i => exact (h i).2 (AccessGraph.node?_of_nodeIndex? hsearch)
  | none =>
    have absent : n ∉ a.nodes := List.idxOf?_eq_none_iff.1 hsearch
    cases found with
    | none => rfl
    | some i => exact absurd (List.mem_of_getElem? ((h i).1 rfl)) absent

theorem IsIndexed.subject?_eq (hg : g.IsIndexed) (name : String) :
    g.subject? name = g.toAccessGraph.subject? name :=
  nodeIndex?_eq (hg.subject?_iff name)

theorem IsIndexed.object?_eq (hg : g.IsIndexed) (kind : ObjectKind) (name : String) :
    g.object? kind name = g.toAccessGraph.object? kind name :=
  nodeIndex?_eq (hg.object?_iff kind name)

theorem joins_iff_key {e : Edge} {source target : Nat} {v : Permission} :
    e.joins source target v = true ↔ e.key = (source, target, v) := by
  simp [Edge.joins, Edge.key, and_assoc]

theorem IsIndexed.edgeIndex?_eq (hg : g.IsIndexed) (source target : Nat) (v : Permission) :
    g.edgeIndex? source target v = g.toAccessGraph.edgeIndex? source target v := by
  cases hsearch : g.toAccessGraph.edgeIndex? source target v with
  | some i =>
    obtain ⟨hi, hjoins, _⟩ := List.findIdx?_eq_some_iff_getElem.1 hsearch
    rw [hg.edgeIndex?_iff, AccessGraph.edge?, List.getElem?_eq_getElem hi, Option.map_some,
      joins_iff_key.1 hjoins]
  | none =>
    have absent := List.findIdx?_eq_none_iff.1 hsearch
    cases hindex : g.edgeIndex? source target v with
    | none => rfl
    | some i =>
      obtain ⟨e, he, hkey⟩ := Option.map_eq_some_iff.1 ((hg.edgeIndex?_iff _ _ _ i).1 hindex)
      rw [← joins_iff_key, absent e (List.mem_of_getElem? he)] at hkey
      exact absurd hkey Bool.false_ne_true

theorem IsIndexed.hasEdge_eq (hg : g.IsIndexed) (source target : Nat) (v : Permission) :
    g.hasEdge source target v = g.toAccessGraph.hasEdge source target v := by
  rw [AccessGraph.hasEdge, ← hg.edgeIndex?_eq, hasEdge, Std.HashMap.contains_eq_isSome_getElem?]
  rfl

theorem IsIndexed.qualifier?_eq (hg : g.IsIndexed) (subject : String) (kind : ObjectKind)
    (object : String) (v : Permission) : g.qualifier? subject kind object v =
      g.toAccessGraph.qualifier? subject kind object v := by
  unfold qualifier? AccessGraph.qualifier?
  simp only [hg.subject?_eq, hg.object?_eq, hg.edgeIndex?_eq]

/-! ## Adding -/

theorem IsIndexed.addSubject_eq (hg : g.IsIndexed) (name : String) :
    (g.addSubject name).map toAccessGraph id = g.toAccessGraph.addSubject name := by
  unfold IndexedGraph.addSubject AccessGraph.addSubject AccessGraph.addNode
  rw [hg.subject?_eq, AccessGraph.subject?]
  cases g.toAccessGraph.nodeIndex? (.subject name) <;> rfl

theorem IsIndexed.addObject_eq (hg : g.IsIndexed) (kind : ObjectKind) (name : String) :
    (g.addObject kind name).map toAccessGraph id = g.toAccessGraph.addObject kind name := by
  unfold IndexedGraph.addObject AccessGraph.addObject AccessGraph.addNode
  rw [hg.object?_eq, AccessGraph.object?]
  cases g.toAccessGraph.nodeIndex? (.object kind name) <;> rfl

theorem IsIndexed.addEdge_eq (hg : g.IsIndexed) (source target : Nat) (v : Permission) :
    (g.addEdge source target v).map toAccessGraph id = g.toAccessGraph.addEdge source target v := by
  unfold IndexedGraph.addEdge AccessGraph.addEdge
  rw [hg.edgeIndex?_eq]
  cases g.toAccessGraph.edgeIndex? source target v <;> rfl

theorem IsIndexed.connect_eq (hg : g.IsIndexed) (subject object : Nat) (v : Permission) :
    (g.connect subject object v).toAccessGraph = g.toAccessGraph.connect subject object v := by
  unfold IndexedGraph.connect AccessGraph.connect
  cases v.flow with
  | outbound => exact congrArg Prod.fst (hg.addEdge_eq subject object v)
  | inbound => exact congrArg Prod.fst (hg.addEdge_eq object subject v)

/-! ## The graph of a store -/

/-- Steps that do with an indexed graph what others do with the graph without indexes, on
terms that they keep, make runs that do so, too. -/
theorem foldl_eq {α : Type} {P : IndexedGraph → Prop} {f : IndexedGraph → α → IndexedGraph}
    {f' : AccessGraph → α → AccessGraph}
    (step : ∀ g x, P g → P (f g x) ∧ (f g x).toAccessGraph = f' g.toAccessGraph x) (xs : List α)
    {g : IndexedGraph} (hg : P g) :
    P (xs.foldl f g) ∧ (xs.foldl f g).toAccessGraph = xs.foldl f' g.toAccessGraph := by
  induction xs generalizing g with
  | nil => exact ⟨hg, rfl⟩
  | cons x xs ih =>
    obtain ⟨hnext, same⟩ := step g x hg
    rw [List.foldl_cons, List.foldl_cons, ← same]
    exact ih hnext

/-- The graph is reached by calls, and has nodes with these numbers. -/
structure Holds (numbers : List Nat) (g : IndexedGraph) : Prop where
  reached : Reaches empty g
  nodes : ∀ i ∈ numbers, i < g.nodeCount

theorem lt_nodeCount_of_node? {i : Nat} {n : Node} (h : g.node? i = some n) : i < g.nodeCount :=
  (List.getElem?_eq_some_iff.1 h).1

/-- What a graph holds is held behind another call. -/
theorem Holds.step {numbers : List Nat} {h : IndexedGraph} (hg : g.Holds numbers)
    (step : Step g h) : h.Holds numbers where
  reached := hg.reached.tail step
  nodes i hi := by
    have there := List.getElem?_eq_getElem (hg.nodes i hi)
    exact lt_nodeCount_of_node? (step.persists.nodes i _ there)

theorem Holds.addSubject {numbers : List Nat} (hg : g.Holds numbers) (name : String) :
    (g.addSubject name).1.Holds ((g.addSubject name).2 :: numbers) where
  reached := hg.reached.tail (.addSubject g name)
  nodes i hi := by
    rcases List.mem_cons.1 hi with rfl | hi
    · exact lt_nodeCount_of_node? ((isIndexed_of_reaches hg.reached).handsOut.subject name)
    · exact (hg.step (.addSubject g name)).nodes i hi

theorem Holds.addObject {numbers : List Nat} (hg : g.Holds numbers) (kind : ObjectKind)
    (name : String) :
    (g.addObject kind name).1.Holds ((g.addObject kind name).2 :: numbers) where
  reached := hg.reached.tail (.addObject g kind name)
  nodes i hi := by
    rcases List.mem_cons.1 hi with rfl | hi
    · exact lt_nodeCount_of_node? ((isIndexed_of_reaches hg.reached).handsOut.object kind name)
    · exact (hg.step (.addObject g kind name)).nodes i hi

/-- Fewer numbers are held as well. -/
theorem Holds.mono {numbers fewer : List Nat} (hg : g.Holds numbers) (h : fewer ⊆ numbers) :
    g.Holds fewer :=
  ⟨hg.reached, fun i hi => hg.nodes i (h hi)⟩

theorem connectAll_eq {subject object : Nat} (vs : List Permission)
    (hg : g.Holds [object, subject]) :
    Holds [object, subject] (vs.foldl (fun g v => g.connect subject object v) g) ∧
      (vs.foldl (fun g v => g.connect subject object v) g).toAccessGraph =
        vs.foldl (fun g v => g.connect subject object v) g.toAccessGraph := by
  refine foldl_eq (P := Holds [object, subject]) (fun g v hg => ⟨hg.step ?_, ?_⟩) vs hg
  · exact .connect g v (hg.nodes subject (by simp)) (hg.nodes object (by simp))
  · exact (isIndexed_of_reaches hg.reached).connect_eq subject object v

theorem addGrant_eq {subject : Nat} (hg : g.Holds [subject]) (r : Rule) (object : String) :
    (addGrant subject r g object).Holds [subject] ∧ (addGrant subject r g object).toAccessGraph =
      AccessGraph.addGrant subject r g.toAccessGraph object := by
  have node := (isIndexed_of_reaches hg.reached).addObject_eq r.kind object
  obtain ⟨held, same⟩ := connectAll_eq r.permissions (hg.addObject r.kind object)
  refine ⟨held.mono (by simp), ?_⟩
  rw [AccessGraph.addGrant, ← node]
  exact same

theorem addRule_eq {subject : Nat} (hg : g.Holds [subject]) (r : Rule) :
    (addRule subject g r).Holds [subject] ∧
      (addRule subject g r).toAccessGraph = AccessGraph.addRule subject g.toAccessGraph r :=
  foldl_eq (P := Holds [subject]) (fun _ object hg => addGrant_eq hg r object) r.attachments hg

theorem addSubjectRules_eq (hg : g.Holds []) (rules : List Rule) (subject : String) :
    (addSubjectRules rules g subject).Holds [] ∧
      (addSubjectRules rules g subject).toAccessGraph =
        AccessGraph.addSubjectRules rules g.toAccessGraph subject := by
  have node := (isIndexed_of_reaches hg.reached).addSubject_eq subject
  have added : (g.addSubject subject).1.Holds [(g.addSubject subject).2] :=
    (hg.addSubject subject).mono (by simp)
  obtain ⟨held, same⟩ := foldl_eq (P := Holds [(g.addSubject subject).2])
    (fun _ r hg => addRule_eq hg r) rules added
  refine ⟨held.mono (by simp), ?_⟩
  rw [AccessGraph.addSubjectRules, ← node]
  exact same

theorem addProfile_eq (hg : g.Holds []) (p : Profile) : (addProfile g p).Holds [] ∧
    (addProfile g p).toAccessGraph = AccessGraph.addProfile g.toAccessGraph p :=
  foldl_eq (P := Holds []) (fun _ subject hg => addSubjectRules_eq hg p.rules subject)
    p.attachments hg

/-- The indexed graph of a store is reached by calls, and is the graph of the store. -/
theorem toAccessGraph_ofStore (store : Store) : Reaches empty (ofStore store) ∧
    (ofStore store).toAccessGraph = AccessGraph.ofStore store := by
  have start : empty.Holds [] := ⟨.refl, fun _ hi => absurd hi List.not_mem_nil⟩
  obtain ⟨held, same⟩ := foldl_eq (P := Holds []) (fun _ p hg => addProfile_eq hg p)
    store.walk start
  exact ⟨held.reached, same⟩

end IndexedGraph

end AccessPolicy
