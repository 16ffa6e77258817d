import AccessPolicy.Collection.Distinct
import AccessPolicy.Element.Basic

/-!
# Paths

A path selects nodes of an element by steps, each from the nodes selected so
far to their children or to all nodes below them. Nodes are told apart by their
place in the tree and not by what they hold: a `Node` carries its position, the
indices of the children on the way to it. Every step keeps each node once,
where it is first met.
-/

namespace AccessPolicy

namespace Path

/-- Where a step goes. -/
inductive Axis where
  | child
  | descendant
deriving DecidableEq, Repr

/-- Which nodes a step accepts. -/
inductive NodeTest where
  | tag (name : String)
  | any
  | current
deriving DecidableEq, Repr

/-- A further condition on the nodes that a step accepts. -/
inductive Predicate where
  | hasAttribute (key : String)
  | attributeEquals (key value : String)
  | hasChild (tag : String)
deriving DecidableEq, Repr

/-- Whether an element satisfies a condition. -/
def Predicate.holds : Predicate → Element → Bool
  | hasAttribute key, e => (e.attribute? key).isSome
  | attributeEquals key value, e => e.attribute? key == some value
  | hasChild tag, e => (e.child? tag).isSome

/-- A step of a path. -/
structure Step where
  axis : Axis
  test : NodeTest
  predicates : List Predicate
deriving DecidableEq, Repr

/-- Whether a test accepts an element. -/
def NodeTest.accepts : NodeTest → Element → Bool
  | tag name, e => e.tag == name
  | any, _ => true
  | current, _ => true

/-- Whether a step accepts an element. -/
def Step.accepts (step : Step) (e : Element) : Bool :=
  step.test.accepts e && step.predicates.all fun p => p.holds e

/-- A node of a tree: the way to it from the root, and the element there. -/
structure Node where
  position : List Nat
  element : Element

mutual

/-- The nodes of a tree whose root has the given position, in document order. -/
def nodesFrom (position : List Nat) : Element → List Node
  | ⟨tag, attributes, text, children⟩ =>
    ⟨position, ⟨tag, attributes, text, children⟩⟩ :: nodesBelow position 0 children

/-- The nodes of the trees below a position, where the first has the given
index. -/
def nodesBelow (position : List Nat) (index : Nat) : List Element → List Node
  | [] => []
  | e :: es => nodesFrom (position ++ [index]) e ++ nodesBelow position (index + 1) es

end

/-- The children of a node. -/
def Node.children (node : Node) : List Node :=
  node.element.children.mapIdx fun index child => ⟨node.position ++ [index], child⟩

/-- The nodes below a node, in document order. -/
def Node.descendants (node : Node) : List Node :=
  nodesBelow node.position 0 node.element.children

/-- The nodes among which a step chooses. -/
def Step.candidates (step : Step) (node : Node) : List Node :=
  match step.axis, step.test with
  | .child, .current => [node]
  | .descendant, .current => node :: node.descendants
  | .child, _ => node.children
  | .descendant, _ => node.descendants

/-- The nodes that a step selects from those selected so far. -/
def Step.select (step : Step) (context : List Node) : List Node :=
  distinctBy (·.position)
    ((context.flatMap step.candidates).filter fun node => step.accepts node.element)

end Path

/-- A path that is relative to the element it is asked of. -/
structure Path where
  steps : List Path.Step
deriving DecidableEq, Repr

namespace Path

/-- The path that goes down through children with the given tags. -/
def ofTags (tags : List String) : Path :=
  ⟨tags.map fun tag => ⟨.child, .tag tag, []⟩⟩

/-- The nodes that a path selects. -/
def nodes (path : Path) (root : Element) : List Node :=
  path.steps.foldl (fun context step => step.select context) [⟨[], root⟩]

/-- The elements that a path selects. -/
def select (path : Path) (root : Element) : List Element :=
  (path.nodes root).map (·.element)

/-- The text of the first element that a path selects. -/
def text? (path : Path) (root : Element) : Option String :=
  (path.select root).head?.bind (·.text)

/-- The tag of the element that holds the results of a query. -/
def resultsTag : String := "results"

/-- The selected elements as the children of a new element. -/
def query (path : Path) (root : Element) : Element :=
  (Element.ofTag resultsTag).withChildren (path.select root)

end Path

end AccessPolicy
