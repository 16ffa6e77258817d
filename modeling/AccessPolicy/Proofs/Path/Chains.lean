import AccessPolicy.Element.Path.Reader
import AccessPolicy.Proofs.Collection.Distinct
import AccessPolicy.Proofs.Path.Nodes

/-!
# What a path denotes

A path denotes the ends of the chains of nodes that begin at the root and take one
step of the path after the other, where each node that is visited has what its step
asks for (`Path.Reaches`). Selecting follows all chains at once and drops a node
that was met before. What is left is what following the chains one by one gives,
deepest first, each node where it is met first (`Path.nodes_eq`). So a path selects
the nodes that it denotes and no others, each once (`Path.findAll_exact`).
-/

namespace AccessPolicy

namespace Path

/-! ## What a step asks for -/

/-- The element is what a test asks for. -/
def NodeTest.Fits : NodeTest → Element → Prop
  | tag name, e => e.tag = name
  | any, _ => True
  | current, _ => True

/-- The element has what a predicate asks for. -/
def Predicate.Satisfied : Predicate → Element → Prop
  | hasAttribute key, e => ∃ value, e.attribute? key = some value
  | attributeEquals key value, e => e.attribute? key = some value
  | hasChild tag, e => ∃ child ∈ e.children, child.tag = tag

/-- The element is what the test of a step asks for, and has what all its predicates
ask for. -/
structure Step.Admits (step : Step) (e : Element) : Prop where
  fits : step.test.Fits e
  satisfies : ∀ p ∈ step.predicates, p.Satisfied e

theorem NodeTest.accepts_iff {test : NodeTest} {e : Element} :
    test.accepts e = true ↔ test.Fits e := by
  cases test with
  | tag name => exact beq_iff_eq
  | any => exact iff_of_true rfl trivial
  | current => exact iff_of_true rfl trivial

theorem Predicate.holds_iff {p : Predicate} {e : Element} :
    p.holds e = true ↔ p.Satisfied e := by
  cases p with
  | hasAttribute key => exact Option.isSome_iff_exists
  | attributeEquals key value => exact beq_iff_eq
  | hasChild tag =>
    rw [holds, Element.child?, List.find?_isSome]
    simp [Satisfied]

theorem Step.accepts_iff {step : Step} {e : Element} : step.accepts e = true ↔ step.Admits e := by
  rw [accepts, Bool.and_eq_true, NodeTest.accepts_iff, List.all_eq_true]
  refine ⟨fun ⟨hfits, hall⟩ => ⟨hfits, fun p hp => Predicate.holds_iff.1 (hall p hp)⟩, ?_⟩
  exact fun h => ⟨h.fits, fun p hp => Predicate.holds_iff.2 (h.satisfies p hp)⟩

/-! ## Chains -/

/-- The step may go from the first position to the second: to a child, to a position
below, or, where it asks for the current node, to the same position or, behind two
slashes, to the same or one below. -/
def Step.Goes (step : Step) (p q : List Nat) : Prop :=
  match step.axis, step.test with
  | .child, .current => q = p
  | .descendant, .current => p <+: q
  | .child, _ => ∃ i, q = p ++ [i]
  | .descendant, _ => p <+: q ∧ q ≠ p

/-- A chain of nodes leads from the first position to the second by the steps, and
every node on it has what its step asks for. -/
inductive Reaches (root : Element) : List Step → List Nat → List Nat → Prop
  | stop {p : List Nat} : Reaches root [] p p
  | go {step : Step} {steps : List Step} {p q r : List Nat} {e : Element} :
      step.Goes p q → root.get? q = some e → step.Admits e → Reaches root steps q r →
        Reaches root (step :: steps) p r

theorem reaches_nil {root : Element} {p r : List Nat} : Reaches root [] p r ↔ r = p := by
  refine ⟨fun h => ?_, fun h => ?_⟩
  · cases h
    rfl
  · rw [h]
    exact .stop

theorem reaches_cons {root : Element} {step : Step} {steps : List Step} {p r : List Nat} :
    Reaches root (step :: steps) p r ↔ ∃ q e, step.Goes p q ∧ root.get? q = some e ∧
      step.Admits e ∧ Reaches root steps q r := by
  refine ⟨fun h => ?_, fun ⟨q, e, hgoes, he, hadmits, h⟩ => .go hgoes he hadmits h⟩
  cases h with
  | go hgoes he hadmits h => exact ⟨_, _, hgoes, he, hadmits, h⟩

/-- The nodes that a step goes to from one node. -/
def Step.choices (step : Step) (node : Node) : List Node :=
  (step.candidates node).filter fun other => step.accepts other.element

/-- The ends of all chains from a node, where one chain is followed after the other
and each to its end. -/
def chainEnds : List Step → Node → List Node
  | [], node => [node]
  | step :: steps, node => (step.choices node).flatMap (chainEnds steps)

variable {root : Element}

theorem prefix_ne_iff {p q : List Nat} : (p <+: q ∧ q ≠ p) ↔ ∃ i is, q = p ++ i :: is := by
  refine ⟨fun ⟨⟨rest, hq⟩, hne⟩ => ?_, fun ⟨i, is, hq⟩ => ?_⟩
  · cases rest with
    | nil => exact absurd (by rw [← hq, List.append_nil]) hne
    | cons i is => exact ⟨i, is, hq.symm⟩
  · exact ⟨⟨i :: is, hq.symm⟩, fun same => by simp [same] at hq⟩

theorem mem_candidates {step : Step} {node other : Node} (hnode : node.IsOf root) :
    other ∈ step.candidates node ↔
      other.IsOf root ∧ step.Goes node.position other.position := by
  have stay : other = node ↔ other.IsOf root ∧ other.position = node.position := by
    refine ⟨fun h => ?_, fun ⟨hof, hposition⟩ => hof.ext hnode hposition⟩
    rw [h]
    exact ⟨hnode, rfl⟩
  have inside : other ∈ node.descendants ↔
      other.IsOf root ∧ node.position <+: other.position ∧ other.position ≠ node.position := by
    rw [mem_descendants hnode, prefix_ne_iff]
  obtain ⟨axis, test, predicates⟩ := step
  cases axis with
  | child =>
    cases test with
    | current => exact List.mem_singleton.trans stay
    | tag name => exact mem_children hnode
    | any => exact mem_children hnode
  | descendant =>
    cases test with
    | current =>
      show other ∈ node :: node.descendants ↔ other.IsOf root ∧ node.position <+: other.position
      rw [List.mem_cons, stay, inside, ← and_or_left]
      refine and_congr_right fun _ => ⟨fun h => ?_, fun h => ?_⟩
      · rcases h with h | h
        · rw [h]
        · exact h.1
      · by_cases same : other.position = node.position
        · exact .inl same
        · exact .inr ⟨h, same⟩
    | tag name => exact inside
    | any => exact inside

theorem mem_choices {step : Step} {node other : Node} (hnode : node.IsOf root) :
    other ∈ step.choices node ↔ other.IsOf root ∧ step.Goes node.position other.position ∧
      step.Admits other.element := by
  rw [Step.choices, List.mem_filter, mem_candidates hnode, Step.accepts_iff, and_assoc]

theorem mem_chainEnds {steps : List Step} {node last : Node} (hnode : node.IsOf root) :
    last ∈ chainEnds steps node ↔
      last.IsOf root ∧ Reaches root steps node.position last.position := by
  induction steps generalizing node with
  | nil =>
    rw [chainEnds, List.mem_singleton]
    refine ⟨fun h => ?_, fun ⟨hof, hreaches⟩ => ?_⟩
    · rw [h]
      exact ⟨hnode, .stop⟩
    · exact hof.ext hnode (reaches_nil.1 hreaches)
  | cons step steps ih =>
    rw [chainEnds, List.mem_flatMap, reaches_cons]
    refine ⟨fun ⟨other, hother, hlast⟩ => ?_, fun ⟨hof, q, e, hgoes, he, hadmits, h⟩ => ?_⟩
    · obtain ⟨hof, hgoes, hadmits⟩ := (mem_choices hnode).1 hother
      obtain ⟨hlast, hreaches⟩ := (ih hof).1 hlast
      exact ⟨hlast, _, _, hgoes, hof, hadmits, hreaches⟩
    · have hof' : Node.IsOf root ⟨q, e⟩ := he
      exact ⟨⟨q, e⟩, (mem_choices hnode).2 ⟨hof', hgoes, hadmits⟩, (ih hof').2 ⟨hof, h⟩⟩

/-! ## Selecting -/

theorem select_eq (step : Step) (context : List Node) :
    step.select context = distinctBy (·.position) (context.flatMap step.choices) := by
  rw [Step.select, List.filter_flatMap]
  rfl

theorem isOf_choices {step : Step} {nodes : List Node} (h : ∀ node ∈ nodes, node.IsOf root) :
    ∀ other ∈ nodes.flatMap step.choices, other.IsOf root := by
  intro other hother
  obtain ⟨node, hnode, hother⟩ := List.mem_flatMap.1 hother
  exact ((mem_choices (h node hnode)).1 hother).1

/-- Nodes of a tree that have one position are the same. -/
theorem eq_of_position_eq {nodes : List Node} (h : ∀ node ∈ nodes, node.IsOf root) :
    ∀ a ∈ nodes, ∀ b ∈ nodes, a.position = b.position → a = b :=
  fun a ha b hb hposition => (h a ha).ext (h b hb) hposition

/-- Nodes that are met again add nothing to what the steps select. -/
theorem foldl_select_distinctBy {steps : List Step} {nodes : List Node}
    (h : ∀ node ∈ nodes, node.IsOf root) :
    steps.foldl (fun context step => step.select context) (distinctBy (·.position) nodes) =
      distinctBy (·.position) (nodes.flatMap (chainEnds steps)) := by
  induction steps generalizing nodes with
  | nil =>
    rw [List.foldl_nil]
    exact congrArg _ (List.flatMap_singleton' nodes).symm
  | cons step steps ih =>
    rw [List.foldl_cons, select_eq, distinctBy_flatMap_distinctBy _ _ (eq_of_position_eq h),
      ih (isOf_choices h), List.flatMap_assoc]
    rfl

/-- A path selects the ends of its chains, each where it is met first. -/
theorem nodes_eq (path : Path) (root : Element) :
    path.nodes root = distinctBy (·.position) (chainEnds path.steps ⟨[], root⟩) := by
  have start : [(⟨[], root⟩ : Node)] = distinctBy (·.position) [⟨[], root⟩] := rfl
  have here : ∀ node ∈ [(⟨[], root⟩ : Node)], node.IsOf root := by
    intro node hnode
    rw [List.mem_singleton.1 hnode]
    exact isOf_root root
  rw [nodes, start, foldl_select_distinctBy here, List.flatMap_singleton]

theorem mem_nodes {path : Path} {node : Node} :
    node ∈ path.nodes root ↔ node.IsOf root ∧ Reaches root path.steps [] node.position := by
  have ends : ∀ last ∈ chainEnds path.steps ⟨[], root⟩, last.IsOf root :=
    fun last hlast => ((mem_chainEnds (isOf_root root)).1 hlast).1
  rw [nodes_eq, mem_distinctBy (eq_of_position_eq ends), mem_chainEnds (isOf_root root)]

theorem nodup_nodes (path : Path) (root : Element) :
    ((path.nodes root).map (·.position)).Nodup := by
  rw [nodes_eq, List.Nodup, List.pairwise_map]
  exact pairwise_distinctBy _ _

theorem findAll_of_read? (root : Element) {text : String} {path : Path}
    (h : read? text = .ok path) :
    root.findAll text = .ok ((path.nodes root).map (·.element)) := by
  rw [Element.findAll, h]
  rfl

/-- A written path selects the elements at the positions that its chains reach, each
position once. -/
theorem findAll_exact (root : Element) {text : String} {path : Path} (h : read? text = .ok path) :
    root.findAll text = .ok ((path.nodes root).map (·.element)) ∧
      ((path.nodes root).map (·.position)).Nodup ∧
      ∀ position e, ⟨position, e⟩ ∈ path.nodes root ↔
        root.get? position = some e ∧ Reaches root path.steps [] position :=
  ⟨findAll_of_read? root h, nodup_nodes path root, fun _ _ => mem_nodes⟩

/-- A policy in which the rule of the outer profile stands behind a profile inside,
and each of the two profiles has one rule on topics. -/
def nestedPolicy : Element :=
  (Element.ofTag "profiles").withChildren [
    (Element.ofTag "profile").withChildren [
      (Element.ofTag "profile").withChildren [
        (Element.ofTag "topic").withAttribute "qualifier" "DENY"],
      (Element.ofTag "topic").withAttribute "qualifier" "ALLOW"]]

/-- All that is below a profile, with rules on topics that have a qualifier. -/
def overlappingPath : Path :=
  ⟨[⟨.child, .current, []⟩, ⟨.descendant, .tag "profile", []⟩, ⟨.descendant, .current, []⟩,
    ⟨.descendant, .tag "topic", [.hasAttribute "qualifier"]⟩]⟩

/-- Three chains reach the inner rule and one reaches the outer one, and each is
selected once. -/
theorem findAll_exact_overlapping :
    read? ".//profile//.//topic[@qualifier]" = .ok overlappingPath ∧
      (overlappingPath.nodes nestedPolicy).map (·.position) = [[0, 0, 0], [0, 1]] ∧
      nestedPolicy.findAll ".//profile//.//topic[@qualifier]" =
        .ok ((overlappingPath.nodes nestedPolicy).map (·.element)) ∧
      ((overlappingPath.nodes nestedPolicy).map (·.position)).Nodup ∧
      ∀ position e, ⟨position, e⟩ ∈ overlappingPath.nodes nestedPolicy ↔
        nestedPolicy.get? position = some e ∧
          Reaches nestedPolicy overlappingPath.steps [] position := by
  have written : read? ".//profile//.//topic[@qualifier]" = .ok overlappingPath := by cbv
  exact ⟨written, by decide, findAll_exact nestedPolicy written⟩

end Path

/-! ## Going down -/

/-- The elements that one comes to through children with the given tags, branch by
branch. -/
def Element.descend : List String → Element → List Element
  | [], e => [e]
  | tag :: tags, e => (e.childrenNamed tag).flatMap (descend tags)

namespace Path

theorem map_element_children (node : Node) :
    node.children.map (·.element) = node.element.children := by
  rw [Node.children]
  exact List.ext_getElem (by simp) (by simp)

/-- What a step to a tag chooses are the children with this tag. -/
theorem map_element_choices (tag : String) (node : Node) :
    ((⟨.child, .tag tag, []⟩ : Step).choices node).map (·.element) =
      node.element.childrenNamed tag := by
  have accepts : ∀ e, (⟨.child, .tag tag, []⟩ : Step).accepts e = (e.tag == tag) := fun e =>
    Bool.and_true _
  rw [Step.choices, Element.childrenNamed, ← map_element_children, List.filter_map]
  congr 1
  exact List.filter_congr fun other _ => accepts other.element

theorem map_element_chainEnds (tags : List String) (node : Node) :
    (chainEnds (ofTags tags).steps node).map (·.element) = node.element.descend tags := by
  induction tags generalizing node with
  | nil => rfl
  | cons tag tags ih =>
    show (((⟨.child, .tag tag, []⟩ : Step).choices node).flatMap
      (chainEnds (ofTags tags).steps)).map (·.element) = _
    rw [List.map_flatMap, Element.descend, ← map_element_choices, List.flatMap_map]
    exact List.flatMap_congr fun other _ => ih other

end Path

end AccessPolicy
