import AccessPolicy.Element.Path.Reader
import AccessPolicy.Profile.Element
import AccessPolicy.Profile.Filter
import AccessPolicy.Profile.Merge
import AccessPolicy.Profile.Order

/-!
# Policy documents

A document is a list of profiles, with a note of where it was found. It is read
from an element that holds profiles, or from a single profile. What can be done
to a profile can be done to a document profile by profile.
-/

namespace AccessPolicy

/-- The tag of a document. -/
def Element.profilesTag : String := "profiles"

/-- A list of profiles. -/
structure Document where
  origin : Option String := none
  profiles : List Profile
deriving DecidableEq

namespace Document

open Element

/-- The document with the given profiles. -/
def ofProfiles (profiles : List Profile) : Document := ⟨none, profiles⟩

/-- Notes where the document was found. -/
def withOrigin (d : Document) (origin : String) : Document :=
  { d with origin := some origin }

/-- The document of an element. -/
def ofElement? (root : Element) : Except StructureError Document :=
  if root.tag = profilesTag then
    (readPlaced (.ofBase profilesTag) Profile.ofElement? root.children).map ofProfiles
  else if root.tag = profileTag then
    (Profile.ofElement? (.ofBase profileTag) root).map fun p => ofProfiles [p]
  else .error (.unexpectedElement root.tag (.ofBase root.tag))

/-- The document as an element. -/
def toElement (d : Document) : Element :=
  (ofTag profilesTag).withChildren (d.profiles.map Profile.toElement)

/-- Whether the document holds no profile. -/
def isEmpty (d : Document) : Bool := d.profiles.isEmpty

/-- All profiles of the document, each before those it holds. -/
def walk (d : Document) : List Profile :=
  d.profiles.flatMap Profile.walk

/-- The rules of a kind, where they stand. -/
def rulesOf (d : Document) (kind : ObjectKind) : List Rule :=
  d.profiles.flatMap (Profile.rulesOf kind)

/-- The document as far as it is for a subject. -/
def filter (subject : String) (d : Document) : Cached Document := do
  let profiles ← Profile.filterAll subject d.profiles
  return { d with profiles }

/-- The document with the rules of each profile merged. -/
def merge (d : Document) : Document :=
  { d with profiles := d.profiles.map Profile.merge }

/-- The document with its profiles in the order of their names, each in order
itself. -/
def sort (d : Document) : Document :=
  { d with
    profiles := (d.profiles.map Profile.sort).mergeSort fun p q => decide (p.name ≤ q.name) }

/-- The elements that a written path selects. -/
def query (d : Document) (path : String) : Except QueryError Element :=
  d.toElement.query path

end Document

end AccessPolicy
