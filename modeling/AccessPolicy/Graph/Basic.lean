import AccessPolicy.Vocabulary

/-!
# Access graphs

The nodes of an access graph are subjects, told apart by name, and objects,
told apart by kind and name. An edge carries one permission and points the way
data flows; between two nodes there is at most one edge for a permission in
either direction. Nodes and edges are known by their number, which is the order
in which they were added, and adding what is there already gives its number.
-/

namespace AccessPolicy

/-- A subject or an object, by the name that its attachment spells. -/
inductive Node where
  | subject (name : String)
  | object (kind : ObjectKind) (name : String)
deriving DecidableEq, Repr

namespace Node

/-- The name of a node. -/
def name : Node → String
  | subject name => name
  | object _ name => name

/-- Whether a node is a subject. -/
def isSubject : Node → Bool
  | subject _ => true
  | object _ _ => false

/-- The kind of a node, if it is an object. -/
def kind? : Node → Option ObjectKind
  | subject _ => none
  | object kind _ => some kind

end Node

/-- A permission between two nodes, and whether it is allowed, once that is
known. -/
structure Edge where
  source : Nat
  target : Nat
  permission : Permission
  qualifier : Option Qualifier := none
deriving DecidableEq, Repr

/-- Whether an edge joins two nodes in this direction with a permission. -/
def Edge.joins (e : Edge) (source target : Nat) (permission : Permission) : Bool :=
  e.source == source && e.target == target && e.permission == permission

/-- One permission between a subject and another node, whichever way its edge
points. -/
structure Access where
  edge : Nat
  subject : Nat
  object : Nat
  permission : Permission
deriving DecidableEq, Repr

/-- Nodes and edges, in the order in which they were added. -/
structure AccessGraph where
  nodes : List Node := []
  edges : List Edge := []
deriving DecidableEq, Repr

namespace AccessGraph

/-- The graph without nodes. -/
def empty : AccessGraph := ⟨[], []⟩

/-! ## Looking up -/

/-- The number of a node. -/
def nodeIndex? (g : AccessGraph) (node : Node) : Option Nat :=
  g.nodes.idxOf? node

/-- The number of the subject with a name. -/
def subject? (g : AccessGraph) (name : String) : Option Nat :=
  g.nodeIndex? (.subject name)

/-- The number of the object with a kind and a name. -/
def object? (g : AccessGraph) (kind : ObjectKind) (name : String) : Option Nat :=
  g.nodeIndex? (.object kind name)

/-- The number of the edge with these ends and this permission. -/
def edgeIndex? (g : AccessGraph) (source target : Nat) (permission : Permission) : Option Nat :=
  g.edges.findIdx? fun e => e.joins source target permission

/-- Whether there is an edge with these ends and this permission. -/
def hasEdge (g : AccessGraph) (source target : Nat) (permission : Permission) : Bool :=
  (g.edgeIndex? source target permission).isSome

/-- The node with a number. -/
def node? (g : AccessGraph) (index : Nat) : Option Node := g.nodes[index]?

/-- The edge with a number. -/
def edge? (g : AccessGraph) (index : Nat) : Option Edge := g.edges[index]?

/-- The nodes with their numbers. -/
def numberedNodes (g : AccessGraph) : List (Nat × Node) :=
  g.nodes.mapIdx fun index node => (index, node)

/-- The edges with their numbers. -/
def numberedEdges (g : AccessGraph) : List (Nat × Edge) :=
  g.edges.mapIdx fun index edge => (index, edge)

/-- The subjects with their numbers. -/
def subjects (g : AccessGraph) : List (Nat × String) :=
  g.numberedNodes.filterMap fun
    | (index, .subject name) => some (index, name)
    | _ => none

/-- The objects with their numbers. -/
def objects (g : AccessGraph) : List (Nat × ObjectKind × String) :=
  g.numberedNodes.filterMap fun
    | (index, .object kind name) => some (index, kind, name)
    | _ => none

/-- The permissions between a node and others, by the number of the edge. An
edge from the node to itself comes twice. -/
def accesses (g : AccessGraph) (node : Nat) : List Access :=
  g.numberedEdges.flatMap fun (index, e) =>
    (if e.source = node then [⟨index, node, e.target, e.permission⟩] else []) ++
      (if e.target = node then [⟨index, node, e.source, e.permission⟩] else [])

/-- What is known of a permission between a subject and an object. The edge
from the subject to the object is looked at first. -/
def qualifier? (g : AccessGraph) (subject : String) (kind : ObjectKind) (object : String)
    (permission : Permission) : Option Qualifier := do
  let s ← g.subject? subject
  let o ← g.object? kind object
  let index ← (g.edgeIndex? s o permission).or (g.edgeIndex? o s permission)
  (← g.edge? index).qualifier

/-! ## Adding -/

/-- Adds a node unless it is there, and gives its number. -/
def addNode (g : AccessGraph) (node : Node) : AccessGraph × Nat :=
  match g.nodeIndex? node with
  | some index => (g, index)
  | none => ({ g with nodes := g.nodes ++ [node] }, g.nodes.length)

/-- Adds a subject unless it is there, and gives its number. -/
def addSubject (g : AccessGraph) (name : String) : AccessGraph × Nat :=
  g.addNode (.subject name)

/-- Adds an object unless it is there, and gives its number. -/
def addObject (g : AccessGraph) (kind : ObjectKind) (name : String) : AccessGraph × Nat :=
  g.addNode (.object kind name)

/-- Adds an edge unless it is there, and gives its number. -/
def addEdge (g : AccessGraph) (source target : Nat) (permission : Permission) :
    AccessGraph × Nat :=
  match g.edgeIndex? source target permission with
  | some index => (g, index)
  | none => ({ g with edges := g.edges ++ [⟨source, target, permission, none⟩] }, g.edges.length)

/-- Adds an edge between a subject and an object, the way data flows. -/
def connect (g : AccessGraph) (subject object : Nat) (permission : Permission) : AccessGraph :=
  match permission.flow with
  | .outbound => (g.addEdge subject object permission).1
  | .inbound => (g.addEdge object subject permission).1

/-- Notes on an edge whether it is allowed. -/
def setQualifier (g : AccessGraph) (edge : Nat) (qualifier : Qualifier) : AccessGraph :=
  { g with edges := g.edges.modify edge fun e => { e with qualifier := some qualifier } }

end AccessGraph

end AccessPolicy
