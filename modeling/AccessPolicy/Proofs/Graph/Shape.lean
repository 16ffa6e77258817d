import AccessPolicy.Proofs.Graph.Session

/-!
# What an evaluation never changes

An evaluation notes on edges whether they are allowed and changes nothing else in the
graph, also where it fails. So the graph keeps its shape: its nodes, and what every edge
joins with which permission (`Store.sameShape_evaluate`).
-/

namespace AccessPolicy

/-- What an edge joins and with which permission. -/
def Edge.key (e : Edge) : Nat × Nat × Permission := (e.source, e.target, e.permission)

namespace AccessGraph

/-- The graphs differ in nothing but what is noted on their edges. -/
structure SameShape (g h : AccessGraph) : Prop where
  nodes : h.nodes = g.nodes
  edges : h.edges.map Edge.key = g.edges.map Edge.key

variable {g h k : AccessGraph}

theorem SameShape.refl (g : AccessGraph) : g.SameShape g := ⟨rfl, rfl⟩

theorem SameShape.trans (hgh : g.SameShape h) (hhk : h.SameShape k) : g.SameShape k :=
  ⟨hhk.nodes.trans hgh.nodes, hhk.edges.trans hgh.edges⟩

/-- Edges with one number have one key. -/
theorem SameShape.edge? (hgh : g.SameShape h) (i : Nat) :
    (h.edge? i).map Edge.key = (g.edge? i).map Edge.key := by
  have same := congrArg (fun keys => keys[i]?) hgh.edges
  simp only [List.getElem?_map] at same
  exact same

theorem sameShape_setQualifier (g : AccessGraph) (edge : Nat) (q : Qualifier) :
    g.SameShape (g.setQualifier edge q) := by
  refine ⟨rfl, List.ext_getElem? fun i => ?_⟩
  show ((g.edges.modify edge _).map Edge.key)[i]? = _
  rw [List.getElem?_map, List.getElem?_map, List.getElem?_modify]
  cases g.edges[i]? with
  | none => rfl
  | some e =>
    -- the note is no part of the key
    by_cases hi : edge = i
    · simp only [if_pos hi]
      rfl
    · simp only [if_neg hi]
      rfl

end AccessGraph

namespace Evaluating

open AccessGraph

variable {α β : Type} {work : Evaluating α} {next : α → Evaluating β}

/-- The graph has the same shape behind the work, whatever the work answers. -/
def KeepsShape (work : Evaluating α) : Prop :=
  ∀ session : Session, session.graph.SameShape (work.run session).2.graph

theorem keepsShape_pure (a : α) : KeepsShape (pure a : Evaluating α) := fun _ => .refl _

theorem keepsShape_graph : KeepsShape graph := fun _ => .refl _

theorem keepsShape_ofCached (work : Cached α) : KeepsShape (ofCached work) := fun _ => .refl _

theorem keepsShape_note (edge : Nat) (resolution : Resolution) :
    KeepsShape (note edge resolution) :=
  fun session => sameShape_setQualifier session.graph edge resolution.qualifier

theorem keepsShape_bind (hwork : work.KeepsShape) (hnext : ∀ a, (next a).KeepsShape) :
    (work >>= next).KeepsShape := by
  intro session
  have first := hwork session
  rw [run_bind]
  -- work that fails has no second part, and leaves what its first part has left
  rcases hrun : work.run session with ⟨e | a, later⟩ <;> rw [hrun] at first
  · exact first
  · exact first.trans (hnext a later)

theorem keepsShape_foldlM {γ : Type} {f : α → γ → Evaluating α}
    (h : ∀ a c, (f a c).KeepsShape) (cs : List γ) (a : α) : (cs.foldlM f a).KeepsShape := by
  induction cs generalizing a with
  | nil => exact keepsShape_pure a
  | cons c cs ih =>
    rw [List.foldlM_cons]
    exact keepsShape_bind (h a c) ih

end Evaluating

namespace Store

open Evaluating

theorem keepsShape_evaluateAccess (policy : Store) (report : Report) (access : Access) :
    (evaluateAccess policy report access).KeepsShape := by
  rw [evaluateAccess_eq]
  refine keepsShape_bind keepsShape_graph fun g => ?_
  unfold evaluateNode
  split
  · refine keepsShape_bind (keepsShape_ofCached _) fun resolution => ?_
    exact keepsShape_bind (keepsShape_note access.edge resolution) fun _ => keepsShape_pure _
  · exact keepsShape_pure report

theorem keepsShape_evaluateSubject (store : Store) (report : Report) (subject : Nat × String) :
    (evaluateSubject store report subject).KeepsShape := by
  refine keepsShape_bind (keepsShape_ofCached _) fun policy => ?_
  refine keepsShape_bind keepsShape_graph fun g => ?_
  exact keepsShape_foldlM (keepsShape_evaluateAccess policy) _ _

/-- An evaluation keeps the shape of the graph, whether it answers or fails. -/
theorem sameShape_evaluate (store : Store) (session : Session) :
    session.graph.SameShape (store.evaluate.run session).2.graph := by
  have keeps : store.evaluate.KeepsShape := keepsShape_bind keepsShape_graph fun g =>
    keepsShape_foldlM (keepsShape_evaluateSubject store) _ _
  exact keeps session

end Store

end AccessPolicy
