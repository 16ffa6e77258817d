import AccessPolicy.Document.Basic

/-!
# Stores of documents

A store is a list of documents that are applied together. Names of profiles
may be used more than once; `duplicateNames` tells which are.
-/

namespace AccessPolicy

/-- A list of documents. -/
structure Store where
  documents : List Document := []
deriving DecidableEq

namespace Store

/-- Appends a document. -/
def push (s : Store) (d : Document) : Store :=
  ⟨s.documents ++ [d]⟩

/-- The number of documents. -/
def size (s : Store) : Nat := s.documents.length

/-- The profiles that the documents hold themselves. -/
def profiles (s : Store) : List Profile :=
  s.documents.flatMap (·.profiles)

/-- All profiles, each before those it holds. -/
def walk (s : Store) : List Profile :=
  s.documents.flatMap Document.walk

/-- The documents of a list as far as they are for a subject, without those
that have no profile left. -/
def filterDocuments (subject : String) : List Document → Cached (List Document)
  | [] => return []
  | d :: ds => do
    let first ← d.filter subject
    let kept ← filterDocuments subject ds
    return if first.isEmpty then kept else first :: kept

/-- The store as far as it is for a subject. -/
def filter (subject : String) (s : Store) : Cached Store := do
  let documents ← filterDocuments subject s.documents
  return ⟨documents⟩

/-- The rules of a kind, where they stand. -/
def rulesOf (s : Store) (kind : ObjectKind) : List Rule :=
  s.documents.flatMap fun d => d.rulesOf kind

/-- The elements that a written path selects in each of the documents, as the
children of one new element. -/
def query (s : Store) (path : String) : Except QueryError Element := do
  let results ← s.documents.mapM fun d => d.query path
  return (Element.ofTag Path.resultsTag).withChildren (results.flatMap (·.children))

/-- The names that more than one profile has, in ascending order. -/
def duplicateNames (s : Store) : List String :=
  let names := s.walk.map (·.name)
  sortTexts ((distinct names).filter fun name => 1 < names.count name)

/-- Fails on the first name that is used more than once. -/
def ensureUniqueNames (s : Store) : Except StructureError Unit :=
  match s.duplicateNames with
  | [] => .ok ()
  | name :: _ => .error (.duplicateProfile name)

/-- The store with the rules of each profile merged. -/
def merge (s : Store) : Store :=
  ⟨s.documents.map Document.merge⟩

/-- The store with each document in order. The documents keep their order. -/
def sort (s : Store) : Store :=
  ⟨s.documents.map Document.sort⟩

end Store

end AccessPolicy
