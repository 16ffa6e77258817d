import AccessPolicy.Graph.Evaluate
import Std.Data.HashMap

/-!
# Graphs with indexes

An indexed graph keeps three indexes beside its nodes and edges: the number of
each subject under its name, of each object under its kind and its name, and of
each edge under its ends and its permission. What is looked up by such a key is
looked up in an index, and what is added is asked for there first.
-/

namespace AccessPolicy

deriving instance Hashable for ObjectKind

deriving instance Hashable for Permission

/-- A graph with indexes of its subjects, its objects and its edges. -/
structure IndexedGraph extends AccessGraph where
  subjectNumbers : Std.HashMap String Nat := {}
  objectNumbers : Std.HashMap (ObjectKind × String) Nat := {}
  edgeNumbers : Std.HashMap (Nat × Nat × Permission) Nat := {}

namespace IndexedGraph

/-- The graph without nodes. -/
def empty : IndexedGraph := {}

/-! ## Looking up -/

/-- The number of the subject with a name. -/
def subject? (g : IndexedGraph) (name : String) : Option Nat :=
  g.subjectNumbers[name]?

/-- The number of the object with a kind and a name. -/
def object? (g : IndexedGraph) (kind : ObjectKind) (name : String) : Option Nat :=
  g.objectNumbers[(kind, name)]?

/-- The number of the edge with these ends and this permission. -/
def edgeIndex? (g : IndexedGraph) (source target : Nat) (permission : Permission) : Option Nat :=
  g.edgeNumbers[(source, target, permission)]?

/-- Whether there is an edge with these ends and this permission. -/
def hasEdge (g : IndexedGraph) (source target : Nat) (permission : Permission) : Bool :=
  g.edgeNumbers.contains (source, target, permission)

/-- What is known of a permission between a subject and an object. The edge
from the subject to the object is looked at first. -/
def qualifier? (g : IndexedGraph) (subject : String) (kind : ObjectKind) (object : String)
    (permission : Permission) : Option Qualifier := do
  let s ← g.subject? subject
  let o ← g.object? kind object
  let index ← (g.edgeIndex? s o permission).or (g.edgeIndex? o s permission)
  (← g.edge? index).qualifier

/-- The number of nodes. -/
def nodeCount (g : IndexedGraph) : Nat := g.nodes.length

/-- The number of edges. -/
def edgeCount (g : IndexedGraph) : Nat := g.edges.length

/-- The number of subjects. -/
def subjectCount (g : IndexedGraph) : Nat := g.subjectNumbers.size

/-- The number of objects. -/
def objectCount (g : IndexedGraph) : Nat := g.objectNumbers.size

/-! ## Adding -/

/-- Adds a subject unless it is there, and gives its number. -/
def addSubject (g : IndexedGraph) (name : String) : IndexedGraph × Nat :=
  match g.subject? name with
  | some index => (g, index)
  | none =>
    ({ g with
      nodes := g.nodes ++ [.subject name]
      subjectNumbers := g.subjectNumbers.insert name g.nodes.length }, g.nodes.length)

/-- Adds an object unless it is there, and gives its number. -/
def addObject (g : IndexedGraph) (kind : ObjectKind) (name : String) : IndexedGraph × Nat :=
  match g.object? kind name with
  | some index => (g, index)
  | none =>
    ({ g with
      nodes := g.nodes ++ [.object kind name]
      objectNumbers := g.objectNumbers.insert (kind, name) g.nodes.length }, g.nodes.length)

/-- Adds an edge unless it is there, and gives its number. -/
def addEdge (g : IndexedGraph) (source target : Nat) (permission : Permission) :
    IndexedGraph × Nat :=
  match g.edgeIndex? source target permission with
  | some index => (g, index)
  | none =>
    ({ g with
      edges := g.edges ++ [⟨source, target, permission, none⟩]
      edgeNumbers := g.edgeNumbers.insert (source, target, permission) g.edges.length },
      g.edges.length)

/-- Adds an edge between a subject and an object, the way data flows. -/
def connect (g : IndexedGraph) (subject object : Nat) (permission : Permission) : IndexedGraph :=
  match permission.flow with
  | .outbound => (g.addEdge subject object permission).1
  | .inbound => (g.addEdge object subject permission).1

/-- Notes on an edge whether it is allowed. -/
def setQualifier (g : IndexedGraph) (edge : Nat) (qualifier : Qualifier) : IndexedGraph :=
  { g with toAccessGraph := g.toAccessGraph.setQualifier edge qualifier }

/-- Evaluates the graph with a cache. The indexes stay as they are. -/
def evaluate (g : IndexedGraph) (store : Store) (cache : Cache) :
    Except PatternError Report × IndexedGraph × Cache :=
  let (answer, session) := store.evaluate.run ⟨g.toAccessGraph, cache⟩
  (answer, { g with toAccessGraph := session.graph }, session.cache)

/-! ## The graph of a store -/

/-- Adds what a rule says about a subject and one object. -/
def addGrant (subject : Nat) (rule : Rule) (g : IndexedGraph) (object : String) : IndexedGraph :=
  let (g, index) := g.addObject rule.kind object
  rule.permissions.foldl (fun g permission => g.connect subject index permission) g

/-- Adds what a rule says about a subject. -/
def addRule (subject : Nat) (g : IndexedGraph) (rule : Rule) : IndexedGraph :=
  rule.attachments.foldl (addGrant subject rule) g

/-- Adds a subject with the rules of a profile. -/
def addSubjectRules (rules : List Rule) (g : IndexedGraph) (subject : String) : IndexedGraph :=
  let (g, index) := g.addSubject subject
  rules.foldl (addRule index) g

/-- Adds the subjects of a profile with the rules that it holds itself. -/
def addProfile (g : IndexedGraph) (profile : Profile) : IndexedGraph :=
  profile.attachments.foldl (addSubjectRules profile.rules) g

/-- The graph of all profiles of a store. -/
def ofStore (store : Store) : IndexedGraph :=
  store.walk.foldl addProfile empty

end IndexedGraph

end AccessPolicy
