import AccessPolicy.Graph.Build
import AccessPolicy.Graph.Resolve

/-!
# Evaluating a graph

For each subject, in the order of their numbers, the store is filtered for the
subject, and each edge between the subject and an object is resolved against
the rules that are left for the kind of that object. The outcome is noted on
the edge.

Evaluation may fail on a pattern that does not compile. The edges that were
resolved before keep what was noted on them.
-/

namespace AccessPolicy

/-- How many edges were resolved, and how. -/
structure Report where
  subjects : Nat := 0
  edges : Nat := 0
  allowed : Nat := 0
  denied : Nat := 0
  unmatched : Nat := 0
deriving DecidableEq, Repr

namespace Report

/-- Nothing is counted. -/
def empty : Report := ⟨0, 0, 0, 0, 0⟩

/-- Counts a subject. -/
def countSubject (r : Report) : Report :=
  { r with subjects := r.subjects + 1 }

/-- Counts a resolved edge. -/
def count (r : Report) (resolution : Resolution) : Report :=
  match resolution with
  | .explicitAllow => { r with edges := r.edges + 1, allowed := r.allowed + 1 }
  | .explicitDeny => { r with edges := r.edges + 1, denied := r.denied + 1 }
  | .noMatch =>
    { r with
      edges := r.edges + 1
      denied := r.denied + 1
      unmatched := r.unmatched + 1 }

end Report

/-- What changes while a graph is evaluated. -/
structure Session where
  graph : AccessGraph
  cache : Cache

/-- Work on a graph that compiles patterns. What it changed stays changed when
it fails. -/
abbrev Evaluating := ExceptT PatternError (StateM Session)

namespace Evaluating

/-- Work that does not look at the graph. -/
def ofCached {α : Type} (work : Cached α) : Evaluating α := fun session =>
  let (answer, cache) := work.run session.cache
  (answer, { session with cache })

/-- The graph as it is. -/
def graph : Evaluating AccessGraph := fun session =>
  (.ok session.graph, session)

/-- Notes on an edge how it was resolved. -/
def note (edge : Nat) (resolution : Resolution) : Evaluating Unit := fun session =>
  (.ok (), { session with graph := session.graph.setQualifier edge resolution.qualifier })

end Evaluating

namespace Store

/-- Resolves one permission of a subject against the store that was filtered
for it. Nodes that are no objects are passed over. -/
def evaluateAccess (policy : Store) (report : Report) (access : Access) :
    Evaluating Report := do
  match (← Evaluating.graph).node? access.object with
  | some (.object kind name) =>
    let resolution ← Evaluating.ofCached (resolve (policy.rulesOf kind) name access.permission)
    Evaluating.note access.edge resolution
    return report.count resolution
  | _ => return report

/-- Resolves the permissions of a subject. -/
def evaluateSubject (store : Store) (report : Report) (subject : Nat × String) :
    Evaluating Report := do
  let policy ← Evaluating.ofCached (store.filter subject.2)
  let accesses := (← Evaluating.graph).accesses subject.1
  accesses.foldlM (evaluateAccess policy) report.countSubject

/-- Resolves the permissions of all subjects. -/
def evaluate (store : Store) : Evaluating Report := do
  let subjects := (← Evaluating.graph).subjects
  subjects.foldlM (evaluateSubject store) Report.empty

end Store

namespace AccessGraph

/-- The outcome of evaluating a graph with an empty cache, and the graph with
what was noted on it. -/
def evaluate (g : AccessGraph) (store : Store) : Except PatternError Report × AccessGraph :=
  let (answer, session) := store.evaluate.run ⟨g, Cache.empty Cache.defaultCapacity⟩
  (answer, session.graph)

end AccessGraph

end AccessPolicy
