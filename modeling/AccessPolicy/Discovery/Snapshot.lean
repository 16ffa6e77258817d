import AccessPolicy.Discovery.Endpoint
import AccessPolicy.Rule.Element

/-!
# Snapshots of a network

A snapshot lists the participants of a network with their publications and
subscriptions. It is read from an element in which each of these is found by a
fixed path; whatever else the element holds is passed over.
-/

namespace AccessPolicy

namespace Discovery

/-- A participant with its endpoints. -/
structure Participant where
  name : String
  publications : List Endpoint := []
  subscriptions : List Endpoint := []
deriving DecidableEq, Repr

namespace Participant

/-- A participant without endpoints. -/
def ofName (name : String) : Participant := ⟨name, [], []⟩

/-- Appends a publication. -/
def withPublication (p : Participant) (endpoint : Endpoint) : Participant :=
  { p with publications := p.publications ++ [endpoint] }

/-- Appends a subscription. -/
def withSubscription (p : Participant) (endpoint : Endpoint) : Participant :=
  { p with subscriptions := p.subscriptions ++ [endpoint] }

/-- All endpoints with their directions, publications first. -/
def endpoints (p : Participant) : List (Direction × Endpoint) :=
  p.publications.map (fun e => (.publication, e)) ++
    p.subscriptions.map (fun e => (.subscription, e))

end Participant

/-- The participants of a network at one time. -/
structure Snapshot where
  participants : List Participant
deriving DecidableEq, Repr

/-! ## Reading elements -/

/-- The way to the participants of all processes. -/
def participantTags : List String :=
  ["processes", "value", "element", "domain_participants", "value", "element"]

/-- The way from a participant to its name. -/
def participantNameTags : List String := ["participant_data", "participant_name", "name"]

/-- The way from a participant to its publications. -/
def publicationTags : List String := ["publications", "value", "element", "publication_data"]

/-- The way from a participant to its subscriptions. -/
def subscriptionTags : List String := ["subscriptions", "value", "element", "subscription_data"]

/-- The way from an endpoint to its topic. -/
def topicTags : List String := ["topic_name"]

/-- The way from an endpoint to the names of its partitions. -/
def partitionTags : List String := ["partition", "name", "element"]

/-- A way as it is written in locations. -/
def wayText (tags : List String) : String := "/".intercalate tags

/-- The elements at the end of a way. -/
def elementsAt (tags : List String) (e : Element) : List Element :=
  (Path.ofTags tags).select e

/-- The text of the first element at the end of a way. -/
def textAt? (tags : List String) (e : Element) : Option String :=
  (Path.ofTags tags).text? e

/-- Reads the elements at the end of a way, giving each its location below a
place. -/
def readAt {α : Type} (location : Location) (tags : List String)
    (read : Location → Element → Except StructureError α) (e : Element) :
    Except StructureError (List α) :=
  ((elementsAt tags e).mapIdx fun index found => (index + 1, found)).mapM fun (index, found) =>
    read (location.down (wayText tags) index) found

/-- The endpoint of an element. Of several partitions the first counts. -/
def Endpoint.ofElement? (location : Location) (e : Element) : Except StructureError Endpoint :=
  match textAt? topicTags e with
  | none => .error (.missingField (wayText topicTags) location)
  | some topic => .ok ⟨topic, textAt? partitionTags e⟩

/-- The participant of an element. Its name must not be empty. -/
def Participant.ofElement? (location : Location) (e : Element) :
    Except StructureError Participant :=
  match textAt? participantNameTags e with
  | none => .error (.missingName location)
  | some name =>
    if name.isEmpty then .error (.missingName location)
    else do
      let publications ← readAt location publicationTags Endpoint.ofElement? e
      let subscriptions ← readAt location subscriptionTags Endpoint.ofElement? e
      return ⟨name, publications, subscriptions⟩

/-- The snapshot of an element. -/
def Snapshot.ofElement? (root : Element) : Except StructureError Snapshot :=
  (readAt (.ofBase "") participantTags Participant.ofElement? root).map (⟨·⟩)

end Discovery

end AccessPolicy
