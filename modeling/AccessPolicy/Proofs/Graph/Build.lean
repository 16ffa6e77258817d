import AccessPolicy.Graph.Build

/-!
# What the graph of a store holds

Every step of building a graph adds some nodes and some arrows, keeps those that
are there, and makes no others (`AccessGraph.Adds`). The steps of a run add what
they add one by one (`AccessGraph.Adds.foldl`), so the graph of a store holds the
nodes and the arrows that its profiles name, and nothing else
(`AccessGraph.mem_nodes_ofStore`, `AccessGraph.leads_ofStore`).
-/

namespace AccessPolicy

namespace AccessGraph

/-- An edge leads from one node to the other with the permission. -/
def Leads (g : AccessGraph) (a b : Node) (permission : Permission) : Prop :=
  ∃ e ∈ g.edges, g.node? e.source = some a ∧ g.node? e.target = some b ∧
    e.permission = permission

/-- The ends of all edges are nodes. -/
def IsClosed (g : AccessGraph) : Prop :=
  ∀ e ∈ g.edges, e.source < g.nodes.length ∧ e.target < g.nodes.length

/-- The second graph is the first one with some nodes and arrows added. -/
structure Adds (g h : AccessGraph) (nodes : Node → Prop)
    (arrows : Node → Node → Permission → Prop) : Prop where
  keeps : ∃ more, h.nodes = g.nodes ++ more
  closed : h.IsClosed
  mem_nodes : ∀ n, n ∈ h.nodes ↔ n ∈ g.nodes ∨ nodes n
  leads : ∀ a b v, h.Leads a b v ↔ g.Leads a b v ∨ arrows a b v

variable {g h k : AccessGraph} {nodes nodes' : Node → Prop}
  {arrows arrows' : Node → Node → Permission → Prop}

/-- A node keeps its number. -/
theorem Adds.node? (ha : Adds g h nodes arrows) {i : Nat} {n : Node}
    (hi : g.node? i = some n) : h.node? i = some n := by
  obtain ⟨more, hmore⟩ := ha.keeps
  rw [AccessGraph.node?] at hi ⊢
  rw [hmore, List.getElem?_append_left (List.getElem?_eq_some_iff.1 hi).1, hi]

theorem Adds.refl (hg : g.IsClosed) : Adds g g (fun _ => False) fun _ _ _ => False where
  keeps := ⟨[], by simp⟩
  closed := hg
  mem_nodes := by simp
  leads := by simp

theorem Adds.trans (ha : Adds g h nodes arrows) (hb : Adds h k nodes' arrows') :
    Adds g k (fun n => nodes n ∨ nodes' n) fun a b v => arrows a b v ∨ arrows' a b v where
  keeps := by
    obtain ⟨more, hmore⟩ := ha.keeps
    obtain ⟨rest, hrest⟩ := hb.keeps
    exact ⟨more ++ rest, by rw [hrest, hmore, List.append_assoc]⟩
  closed := hb.closed
  mem_nodes n := by rw [hb.mem_nodes, ha.mem_nodes, or_assoc]
  leads a b v := by rw [hb.leads, ha.leads, or_assoc]

theorem Adds.congr (ha : Adds g h nodes arrows) (hn : ∀ n, nodes n ↔ nodes' n)
    (hv : ∀ a b v, arrows a b v ↔ arrows' a b v) : Adds g h nodes' arrows' where
  keeps := ha.keeps
  closed := ha.closed
  mem_nodes n := by rw [ha.mem_nodes, hn]
  leads a b v := by rw [ha.leads, hv]

/-- Steps that each add something, and keep a fact about the graph on which they
rest, add all of it. -/
theorem Adds.foldl {α : Type} {f : AccessGraph → α → AccessGraph} {P : AccessGraph → Prop}
    {nodesOf : α → Node → Prop} {arrowsOf : α → Node → Node → Permission → Prop}
    (step : ∀ g x, g.IsClosed → P g → P (f g x) ∧ Adds g (f g x) (nodesOf x) (arrowsOf x))
    (xs : List α) {g : AccessGraph} (hg : g.IsClosed) (hp : P g) :
    Adds g (xs.foldl f g) (fun n => ∃ x ∈ xs, nodesOf x n)
      fun a b v => ∃ x ∈ xs, arrowsOf x a b v := by
  -- every step begins with the graph that the one before it left
  induction xs generalizing g with
  | nil => exact (Adds.refl hg).congr (by simp) (by simp)
  | cons x xs ih =>
    obtain ⟨hp', first⟩ := step g x hg hp
    exact (first.trans (ih first.closed hp')).congr (by simp) (by simp)

/-! ## One node -/

theorem node?_of_nodeIndex? {node : Node} {i : Nat} (h : g.nodeIndex? node = some i) :
    g.node? i = some node := by
  obtain ⟨hi, hnode, _⟩ := List.idxOf?_eq_some_iff.1 h
  rw [node?, List.getElem?_eq_getElem hi, hnode]

/-- The number that a node is given is its number. -/
theorem addNode_node? (g : AccessGraph) (node : Node) :
    (g.addNode node).1.node? (g.addNode node).2 = some node := by
  unfold addNode
  cases hi : g.nodeIndex? node with
  | some i => exact node?_of_nodeIndex? hi
  | none => simp [node?]

/-- Appending a node does not make an edge lead anywhere else. -/
theorem leads_append_node (hg : g.IsClosed) (node a b : Node) (v : Permission) :
    Leads { g with nodes := g.nodes ++ [node] } a b v ↔ g.Leads a b v := by
  have same : ∀ i, i < g.nodes.length →
      (AccessGraph.node? { g with nodes := g.nodes ++ [node] } i = g.node? i) :=
    fun i hi => List.getElem?_append_left hi
  refine exists_congr fun e => and_congr_right fun he => ?_
  rw [same _ (hg e he).1, same _ (hg e he).2]

theorem addNode_adds (hg : g.IsClosed) (node : Node) :
    Adds g (g.addNode node).1 (· = node) fun _ _ _ => False := by
  unfold addNode
  cases hi : g.nodeIndex? node with
  | some i =>
    have there : node ∈ g.nodes := List.mem_of_getElem? (node?_of_nodeIndex? hi)
    refine ⟨⟨[], by simp⟩, hg, fun n => ?_, by simp⟩
    refine ⟨.inl, fun h => ?_⟩
    rcases h with h | rfl
    · exact h
    · exact there
  | none =>
    refine ⟨⟨[node], rfl⟩, fun e he => ?_, by simp, fun a b v => ?_⟩
    · have := hg e he
      rw [List.length_append, List.length_singleton]
      omega
    · rw [leads_append_node hg, or_false]

/-! ## One edge -/

/-- An edge that is found joins its ends with its permission. -/
theorem edge_of_edgeIndex? {source target i : Nat} {v : Permission}
    (h : g.edgeIndex? source target v = some i) :
    ∃ e ∈ g.edges, e.source = source ∧ e.target = target ∧ e.permission = v := by
  obtain ⟨hi, hjoins, _⟩ := List.findIdx?_eq_some_iff_getElem.1 h
  refine ⟨g.edges[i], List.getElem_mem hi, ?_⟩
  simpa [Edge.joins, and_assoc] using hjoins

theorem addEdge_adds (hg : g.IsClosed) {source target : Nat} {tail head : Node} {v : Permission}
    (hsource : g.node? source = some tail) (htarget : g.node? target = some head) :
    Adds g (g.addEdge source target v).1 (fun _ => False)
      fun a b w => a = tail ∧ b = head ∧ w = v := by
  unfold addEdge
  cases hi : g.edgeIndex? source target v with
  | some i =>
    refine ⟨⟨[], by simp⟩, hg, by simp, fun a b w => ⟨.inl, fun h => ?_⟩⟩
    rcases h with h | ⟨rfl, rfl, rfl⟩
    · exact h
    · obtain ⟨e, he, rfl, rfl, hv⟩ := edge_of_edgeIndex? hi
      exact ⟨e, he, hsource, htarget, hv⟩
  | none =>
    refine ⟨⟨[], by simp⟩, fun e he => ?_, by simp, fun a b w => ?_⟩
    · rcases List.mem_append.1 he with he | he
      · exact hg e he
      · rw [List.mem_singleton] at he
        rw [he]
        exact ⟨(List.getElem?_eq_some_iff.1 hsource).1, (List.getElem?_eq_some_iff.1 htarget).1⟩
    · refine ⟨fun h => ?_, fun h => ?_⟩
      · obtain ⟨e, he, ha, hb, hw⟩ := h
        rcases List.mem_append.1 he with he | he
        · exact .inl ⟨e, he, ha, hb, hw⟩
        · rw [List.mem_singleton] at he
          rw [he] at ha hb hw
          exact .inr ⟨Option.some.inj (ha.symm.trans hsource),
            Option.some.inj (hb.symm.trans htarget), hw.symm⟩
      · rcases h with ⟨e, he, ha, hb, hw⟩ | ⟨rfl, rfl, rfl⟩
        · exact ⟨e, List.mem_append_left _ he, ha, hb, hw⟩
        · exact ⟨_, List.mem_append_right _ (List.mem_singleton.2 rfl), hsource, htarget, rfl⟩

/-- The arrow of a permission between a subject and an object, the way data
flows. -/
def Flows (subject : String) (kind : ObjectKind) (object : String) (a b : Node)
    (v : Permission) : Prop :=
  match v.flow with
  | .outbound => a = .subject subject ∧ b = .object kind object
  | .inbound => a = .object kind object ∧ b = .subject subject

theorem connect_adds (hg : g.IsClosed) {s o : Nat} {subject object : String} {kind : ObjectKind}
    (hs : g.node? s = some (.subject subject)) (ho : g.node? o = some (.object kind object))
    (v : Permission) :
    Adds g (g.connect s o v) (fun _ => False)
      fun a b w => w = v ∧ Flows subject kind object a b w := by
  unfold connect
  cases hflow : v.flow with
  | outbound =>
    refine (addEdge_adds hg hs ho).congr (fun _ => Iff.rfl) fun a b w => ?_
    refine ⟨fun ⟨ha, hb, hw⟩ => ⟨hw, ?_⟩, fun ⟨hw, h⟩ => ?_⟩
    · rw [Flows, hw, hflow]
      exact ⟨ha, hb⟩
    · rw [Flows, hw, hflow] at h
      exact ⟨h.1, h.2, hw⟩
  | inbound =>
    refine (addEdge_adds hg ho hs).congr (fun _ => Iff.rfl) fun a b w => ?_
    refine ⟨fun ⟨ha, hb, hw⟩ => ⟨hw, ?_⟩, fun ⟨hw, h⟩ => ?_⟩
    · rw [Flows, hw, hflow]
      exact ⟨ha, hb⟩
    · rw [Flows, hw, hflow] at h
      exact ⟨h.1, h.2, hw⟩

/-! ## Rules, profiles and stores -/

theorem connectAll_adds (hg : g.IsClosed) {s o : Nat} {subject object : String}
    {kind : ObjectKind} (hs : g.node? s = some (.subject subject))
    (ho : g.node? o = some (.object kind object)) (vs : List Permission) :
    Adds g (vs.foldl (fun g v => g.connect s o v) g) (fun _ => False)
      fun a b v => v ∈ vs ∧ Flows subject kind object a b v := by
  have all := Adds.foldl (g := g) (f := fun g v => g.connect s o v)
    (P := fun g => g.node? s = some (.subject subject) ∧ g.node? o = some (.object kind object))
    (fun h v hh hnodes =>
      have adds := connect_adds hh hnodes.1 hnodes.2 v
      ⟨⟨adds.node? hnodes.1, adds.node? hnodes.2⟩, adds⟩)
    vs hg ⟨hs, ho⟩
  refine all.congr (by simp) fun a b v => ?_
  exact ⟨fun ⟨w, hw, hv, h⟩ => ⟨hv ▸ hw, h⟩, fun ⟨hv, h⟩ => ⟨v, hv, rfl, h⟩⟩

theorem addGrant_adds (hg : g.IsClosed) {s : Nat} {subject : String}
    (hs : g.node? s = some (.subject subject)) (r : Rule) (object : String) :
    Adds g (addGrant s r g object) (· = .object r.kind object)
      fun a b v => v ∈ r.permissions ∧ Flows subject r.kind object a b v := by
  have node := addNode_adds hg (.object r.kind object)
  have edges := connectAll_adds node.closed (node.node? hs)
    (addNode_node? g (.object r.kind object)) r.permissions
  exact (node.trans edges).congr (by simp) (by simp)

theorem addRule_adds (hg : g.IsClosed) {s : Nat} {subject : String}
    (hs : g.node? s = some (.subject subject)) (r : Rule) :
    Adds g (addRule s g r) (fun n => ∃ object ∈ r.attachments, n = .object r.kind object)
      fun a b v => ∃ object ∈ r.attachments,
        v ∈ r.permissions ∧ Flows subject r.kind object a b v :=
  Adds.foldl (P := fun g => g.node? s = some (.subject subject))
    (fun _ object hh hs =>
      have adds := addGrant_adds hh hs r object
      ⟨adds.node? hs, adds⟩)
    r.attachments hg hs

theorem addSubjectRules_adds (hg : g.IsClosed) (rules : List Rule) (subject : String) :
    Adds g (addSubjectRules rules g subject)
      (fun n => n = .subject subject ∨
        ∃ r ∈ rules, ∃ object ∈ r.attachments, n = .object r.kind object)
      fun a b v => ∃ r ∈ rules, ∃ object ∈ r.attachments,
        v ∈ r.permissions ∧ Flows subject r.kind object a b v := by
  have node := addNode_adds hg (.subject subject)
  have objects := Adds.foldl
    (P := fun h => h.node? (g.addNode (.subject subject)).2 = some (.subject subject))
    (fun _ r hh hs =>
      have adds := addRule_adds hh hs r
      ⟨adds.node? hs, adds⟩)
    rules node.closed (addNode_node? g (.subject subject))
  exact (node.trans objects).congr (fun _ => Iff.rfl) (by simp)

/-- A node is one that the profile itself names. -/
def Names (p : Profile) (n : Node) : Prop :=
  ∃ subject ∈ p.attachments, n = .subject subject ∨
    ∃ r ∈ p.rules, ∃ object ∈ r.attachments, n = .object r.kind object

/-- An arrow is one that the profile itself names. -/
def NamesArrow (p : Profile) (a b : Node) (v : Permission) : Prop :=
  ∃ subject ∈ p.attachments, ∃ r ∈ p.rules, ∃ object ∈ r.attachments,
    v ∈ r.permissions ∧ Flows subject r.kind object a b v

theorem addProfile_adds (hg : g.IsClosed) (p : Profile) :
    Adds g (addProfile g p) (Names p) (NamesArrow p) :=
  Adds.foldl (P := fun _ => True)
    (fun _ subject hh _ => ⟨trivial, addSubjectRules_adds hh p.rules subject⟩)
    p.attachments hg trivial

theorem ofStore_adds (s : Store) : Adds empty (ofStore s) (fun n => ∃ p ∈ s.walk, Names p n)
    fun a b v => ∃ p ∈ s.walk, NamesArrow p a b v :=
  Adds.foldl (P := fun _ => True) (fun _ p hh _ => ⟨trivial, addProfile_adds hh p⟩)
    s.walk (by simp [IsClosed, empty]) trivial

/-- The graph of a store has the nodes that its profiles name. -/
theorem mem_nodes_ofStore {s : Store} {n : Node} :
    n ∈ (ofStore s).nodes ↔ ∃ p ∈ s.walk, Names p n := by
  rw [(ofStore_adds s).mem_nodes]
  simp [empty]

/-- The graph of a store has the arrows that its profiles name. -/
theorem leads_ofStore {s : Store} {a b : Node} {v : Permission} :
    (ofStore s).Leads a b v ↔ ∃ p ∈ s.walk, NamesArrow p a b v := by
  rw [(ofStore_adds s).leads]
  simp [Leads, empty]

end AccessGraph

end AccessPolicy
