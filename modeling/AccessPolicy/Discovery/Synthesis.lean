import AccessPolicy.Discovery.Snapshot
import AccessPolicy.Store.Basic

/-!
# Policies from snapshots

From a snapshot a policy is derived that allows each participant what it was
seen to do. Participants with one name make one profile. A profile has one rule
for each object, with all permissions that were seen; rules with the same
permissions are then merged, and everything is put in order.
-/

namespace AccessPolicy

namespace Discovery

/-- What a participant was seen to do. -/
structure Observation where
  subject : String
  grants : List Grant
deriving DecidableEq, Repr

/-- What a participant is seen to do. -/
def Synthesis.observe (config : Synthesis) (p : Participant) : Except Error Observation := do
  let grants ← p.endpoints.mapM fun (direction, endpoint) => config.classify direction endpoint
  return ⟨config.subjectPrefix ++ p.name, grants.filterMap id⟩

/-- The order of objects: by kind, then by name. -/
def objectLE (a b : ObjectKind × String) : Bool :=
  a.1.rank < b.1.rank || (a.1.rank == b.1.rank && decide (a.2 ≤ b.2))

/-- The objects of some grants, each once and in their order. -/
def grantedObjects (grants : List Grant) : List (ObjectKind × String) :=
  (distinct (grants.map fun g => (g.kind, g.object))).mergeSort objectLE

/-- The rule that allows what some grants say about an object. -/
def ruleOf (grants : List Grant) (object : ObjectKind × String) : Rule where
  kind := object.1
  qualifier := .allow
  attachments := [object.2]
  permissions := Permission.all.filter fun p => grants.contains ⟨object.1, object.2, p⟩

/-- The profile that allows a subject what some grants say. -/
def profileOf (subject : String) (grants : List Grant) : Profile where
  name := subject
  attachments := [subject]
  items := (grantedObjects grants).map fun object => .rule (ruleOf grants object)

/-- The grants that were observed of a subject. -/
def grantsOf (observations : List Observation) (subject : String) : List Grant :=
  (observations.filter fun o => o.subject == subject).flatMap (·.grants)

/-- The policy that a snapshot shows. -/
def Synthesis.synthesize (config : Synthesis) (snapshot : Snapshot) : Except Error Store := do
  let observations ← snapshot.participants.mapM config.observe
  let subjects := distinct (observations.map (·.subject))
  let profiles := subjects.map fun subject =>
    (profileOf subject (grantsOf observations subject)).merge.sort
  return ⟨[(Document.ofProfiles profiles).sort]⟩

end Discovery

end AccessPolicy
