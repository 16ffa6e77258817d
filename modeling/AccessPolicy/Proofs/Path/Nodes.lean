import AccessPolicy.Element.Path.Basic
import Mathlib.Data.List.Infix

/-!
# The nodes of a tree

A position leads to at most one element of a tree (`Element.get?`). The nodes of a
tree are the positions that lead somewhere, each with the element there
(`Path.mem_nodesFrom`). They are listed in document order, which is the
lexicographic order of positions: a node comes before all nodes below it, and what
is below one child comes before what is below the next
(`Path.nodesFrom_pairwise`).
-/

namespace AccessPolicy

/-! ## Positions -/

/-- The element that a position leads to. -/
def Element.get? (e : Element) : List Nat → Option Element
  | [] => some e
  | i :: is => e.children[i]?.bind fun child => child.get? is

namespace Element

@[simp] theorem get?_nil (e : Element) : e.get? [] = some e := by
  rw [get?]

theorem get?_cons (e : Element) (i : Nat) (is : List Nat) :
    e.get? (i :: is) = e.children[i]?.bind fun child => child.get? is := by
  rw [get?]

/-- A position leads on from where its first part leads. -/
theorem get?_append (e : Element) (is js : List Nat) :
    e.get? (is ++ js) = (e.get? is).bind fun inner => inner.get? js := by
  induction is generalizing e with
  | nil => simp
  | cons i is ih =>
    rw [List.cons_append, get?_cons, get?_cons, Option.bind_assoc]
    congr 1
    funext child
    exact ih child

end Element

namespace Path

/-! ## Document order of positions -/

/-- A position comes before those below it. -/
theorem lt_append (p : List Nat) (i : Nat) (rest : List Nat) : p < p ++ i :: rest := by
  induction p with
  | nil => exact List.nil_lt_cons i rest
  | cons j p ih => exact List.cons_lt_cons_iff.2 (.inr ⟨rfl, ih⟩)

theorem append_lt_append_iff (p : List Nat) {q r : List Nat} : p ++ q < p ++ r ↔ q < r := by
  induction p with
  | nil => exact Iff.rfl
  | cons i p ih => simp [ih]

/-- Where two positions part, they part in all that is below them. -/
theorem append_lt_append {p q : List Nat} (h : p < q) (hpart : ¬ p <+: q) (is js : List Nat) :
    p ++ is < q ++ js := by
  induction p generalizing q with
  | nil => exact absurd List.nil_prefix hpart
  | cons i p ih =>
    cases q with
    | nil => exact absurd h (List.not_lt_nil _)
    | cons j q =>
      rcases List.cons_lt_cons_iff.1 h with hij | ⟨rfl, hpq⟩
      · exact List.cons_lt_cons_iff.2 (.inl hij)
      · have apart : ¬ p <+: q := fun hpre => hpart (List.cons_prefix_cons.2 ⟨rfl, hpre⟩)
        exact List.cons_lt_cons_iff.2 (.inr ⟨rfl, ih hpq apart⟩)

/-- One node stands before another in the document. -/
def Node.Before (a b : Node) : Prop := a.position < b.position

theorem Node.Before.ne {a b : Node} (h : a.Before b) : a.position ≠ b.position := by
  intro same
  rw [Node.Before, same] at h
  exact List.lt_irrefl _ h

/-! ## The nodes of a tree -/

/-- The node is one of the tree with the given root. -/
def Node.IsOf (root : Element) (node : Node) : Prop :=
  root.get? node.position = some node.element

variable {root : Element}

theorem isOf_root (root : Element) : Node.IsOf root ⟨[], root⟩ := root.get?_nil

/-- In a tree a node is known by its position. -/
theorem Node.IsOf.ext {a b : Node} (ha : a.IsOf root) (hb : b.IsOf root)
    (h : a.position = b.position) : a = b := by
  obtain ⟨position, element⟩ := a
  obtain ⟨position', element'⟩ := b
  cases h
  rw [Node.mk.injEq]
  exact ⟨rfl, Option.some.inj (ha.symm.trans hb)⟩

mutual

/-- The nodes of a tree are what positions lead to. -/
theorem mem_nodesFrom {position : List Nat} {node : Node} : ∀ {e : Element},
    node ∈ nodesFrom position e ↔
      ∃ is, node.position = position ++ is ∧ e.get? is = some node.element
  | ⟨tag, attributes, text, children⟩ => by
    rw [nodesFrom, List.mem_cons, mem_nodesBelow]
    refine ⟨fun h => ?_, fun ⟨is, hposition, his⟩ => ?_⟩
    · rcases h with rfl | ⟨i, is, child, hchild, hposition, his⟩
      · exact ⟨[], by simp, Element.get?_nil _⟩
      · refine ⟨i :: is, by simpa using hposition, ?_⟩
        rw [Element.get?_cons, hchild]
        exact his
    · cases is with
      | nil =>
        rw [Element.get?_nil, Option.some.injEq] at his
        obtain ⟨_, _⟩ := node
        rw [List.append_nil] at hposition
        exact .inl (by rw [Node.mk.injEq]; exact ⟨hposition, his.symm⟩)
      | cons i is =>
        rw [Element.get?_cons, Option.bind_eq_some_iff] at his
        obtain ⟨child, hchild, his⟩ := his
        exact .inr ⟨i, is, child, hchild, by simpa using hposition, his⟩

theorem mem_nodesBelow {position : List Nat} {index : Nat} {node : Node} :
    ∀ {es : List Element}, node ∈ nodesBelow position index es ↔
      ∃ i is e, es[i]? = some e ∧ node.position = position ++ (index + i) :: is ∧
        e.get? is = some node.element
  | [] => by simp [nodesBelow]
  | e :: es => by
    rw [nodesBelow, List.mem_append, mem_nodesFrom, mem_nodesBelow]
    refine ⟨fun h => ?_, fun ⟨i, is, e', he', hposition, his⟩ => ?_⟩
    · rcases h with ⟨is, hposition, his⟩ | ⟨i, is, e', he', hposition, his⟩
      · exact ⟨0, is, e, rfl, by simpa using hposition, his⟩
      · refine ⟨i + 1, is, e', he', ?_, his⟩
        rw [hposition, Nat.add_assoc, Nat.add_comm 1 i]
    · cases i with
      | zero =>
        cases he'
        exact .inl ⟨is, by simpa using hposition, his⟩
      | succ i =>
        refine .inr ⟨i, is, e', he', ?_, his⟩
        rw [hposition, Nat.add_assoc, Nat.add_comm 1 i]

end

theorem mem_nodesFrom_root {node : Node} : node ∈ nodesFrom [] root ↔ node.IsOf root := by
  rw [mem_nodesFrom]
  exact ⟨fun ⟨is, hposition, his⟩ => by rw [Node.IsOf, hposition]; exact his,
    fun h => ⟨node.position, rfl, h⟩⟩

mutual

/-- The nodes of a tree stand in document order. -/
theorem nodesFrom_pairwise (position : List Nat) : ∀ e : Element,
    (nodesFrom position e).Pairwise Node.Before
  | ⟨tag, attributes, text, children⟩ => by
    rw [nodesFrom, List.pairwise_cons]
    refine ⟨fun node hnode => ?_, nodesBelow_pairwise position 0 children⟩
    obtain ⟨i, is, _, _, hposition, _⟩ := mem_nodesBelow.1 hnode
    rw [Node.Before, hposition]
    exact lt_append position _ is

theorem nodesBelow_pairwise (position : List Nat) (index : Nat) : ∀ es : List Element,
    (nodesBelow position index es).Pairwise Node.Before
  | [] => by
    rw [nodesBelow]
    exact List.Pairwise.nil
  | e :: es => by
    rw [nodesBelow, List.pairwise_append]
    refine ⟨nodesFrom_pairwise _ e, nodesBelow_pairwise position (index + 1) es, ?_⟩
    intro a ha b hb
    obtain ⟨is, ha, _⟩ := mem_nodesFrom.1 ha
    obtain ⟨j, js, _, _, hb, _⟩ := mem_nodesBelow.1 hb
    rw [Node.Before, ha, hb, List.append_assoc, append_lt_append_iff]
    exact List.cons_lt_cons_iff.2 (.inl (by omega))

end

mutual

/-- Without their positions the nodes are the elements of the tree, each before its
children. -/
theorem map_element_nodesFrom (position : List Nat) : ∀ e : Element,
    (nodesFrom position e).map (·.element) = e.preorder
  | ⟨tag, attributes, text, children⟩ => by
    rw [nodesFrom, List.map_cons, map_element_nodesBelow, Element.preorder]

theorem map_element_nodesBelow (position : List Nat) (index : Nat) : ∀ es : List Element,
    (nodesBelow position index es).map (·.element) = Element.preorderAll es
  | [] => by rw [nodesBelow, Element.preorderAll, List.map_nil]
  | e :: es => by
    rw [nodesBelow, List.map_append, map_element_nodesFrom, map_element_nodesBelow,
      Element.preorderAll]

end

/-! ## Children and descendants -/

theorem mem_children {node child : Node} (hnode : node.IsOf root) :
    child ∈ node.children ↔ child.IsOf root ∧ ∃ i, child.position = node.position ++ [i] := by
  have leads : ∀ i, root.get? (node.position ++ [i]) = node.element.children[i]? := by
    intro i
    rw [Element.get?_append, hnode, Option.bind_some, Element.get?_cons]
    simp
  rw [Node.children, List.mem_mapIdx]
  refine ⟨fun ⟨i, hi, hchild⟩ => ?_, fun ⟨hof, i, hposition⟩ => ?_⟩
  · rw [← hchild]
    refine ⟨?_, i, rfl⟩
    rw [Node.IsOf, leads, List.getElem?_eq_getElem hi]
  · rw [Node.IsOf, hposition, leads] at hof
    obtain ⟨hi, helement⟩ := List.getElem?_eq_some_iff.1 hof
    refine ⟨i, hi, ?_⟩
    rw [helement, ← hposition]

theorem mem_descendants {node inner : Node} (hnode : node.IsOf root) :
    inner ∈ node.descendants ↔
      inner.IsOf root ∧ ∃ i is, inner.position = node.position ++ i :: is := by
  rw [Node.descendants, mem_nodesBelow]
  refine ⟨fun ⟨i, is, child, hchild, hposition, his⟩ => ?_, fun ⟨hof, i, is, hposition⟩ => ?_⟩
  · rw [Nat.zero_add] at hposition
    refine ⟨?_, i, is, hposition⟩
    rw [Node.IsOf, hposition, Element.get?_append, hnode, Option.bind_some, Element.get?_cons,
      hchild]
    exact his
  · rw [Node.IsOf, hposition, Element.get?_append, hnode, Option.bind_some, Element.get?_cons,
      Option.bind_eq_some_iff] at hof
    obtain ⟨child, hchild, his⟩ := hof
    exact ⟨i, is, child, hchild, by rw [hposition, Nat.zero_add], his⟩

theorem children_pairwise (node : Node) : node.children.Pairwise Node.Before := by
  rw [Node.children, List.pairwise_iff_getElem]
  intro i j hi hj hij
  rw [List.getElem_mapIdx, List.getElem_mapIdx, Node.Before, append_lt_append_iff]
  exact List.cons_lt_cons_iff.2 (.inl hij)

theorem descendants_pairwise (node : Node) : node.descendants.Pairwise Node.Before :=
  nodesBelow_pairwise node.position 0 node.element.children

end Path

end AccessPolicy
