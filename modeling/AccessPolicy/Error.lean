import AccessPolicy.Element.Location
import AccessPolicy.Element.Path.Reader
import AccessPolicy.Glob.Error

/-!
# What can be wrong with a policy

A policy fails to be read when its elements do not make up profiles and rules
(`StructureError`), to be applied when a pattern does not compile
(`PatternError`), and to be queried when a path cannot be read (`QueryError`).
-/

namespace AccessPolicy

/-- What is wrong with the elements of a policy, and where. -/
inductive StructureError where
  | unexpectedElement (tag : String) (location : Location)
  | missingName (location : Location)
  | missingAttachments (location : Location)
  | missingPermissions (location : Location)
  | unknownPermission (verb : String) (location : Location)
  | unknownObjectKind (kind : String) (location : Location)
  | unknownQualifier (qualifier : String) (location : Location)
  | missingField (field : String) (location : Location)
  | duplicateProfile (name : String)
deriving DecidableEq, Repr

namespace StructureError

/-- The place that is reported. A name used twice has no one place. -/
def location? : StructureError → Option Location
  | unexpectedElement _ location
  | missingName location
  | missingAttachments location
  | missingPermissions location
  | unknownPermission _ location
  | unknownObjectKind _ location
  | unknownQualifier _ location
  | missingField _ location => some location
  | duplicateProfile _ => none

/-- What went wrong, in words. -/
def message (e : StructureError) : String :=
  let place := (e.location?.map Location.toText).getD ""
  match e with
  | unexpectedElement tag _ => s!"unexpected element <{tag}> at {place}"
  | missingName _ => s!"profile at {place} has no name"
  | missingAttachments _ => s!"rule at {place} has no attachments"
  | missingPermissions _ => s!"rule at {place} has no permissions"
  | unknownPermission verb _ => s!"unknown permission '{verb}' at {place}"
  | unknownObjectKind kind _ => s!"unknown object kind '{kind}' at {place}"
  | unknownQualifier qualifier _ => s!"unknown qualifier '{qualifier}' at {place}"
  | missingField field _ => s!"missing '{field}' at {place}"
  | duplicateProfile name => s!"duplicate profile name '{name}'"

end StructureError

/-- Anything that can be wrong with a policy. -/
inductive PolicyError where
  | pattern (e : PatternError)
  | malformed (e : StructureError)
  | query (e : QueryError)
deriving DecidableEq, Repr

/-- What went wrong, in words. -/
def PolicyError.message : PolicyError → String
  | pattern e => "Pattern error: " ++ e.message
  | malformed e => "Structure error: " ++ e.message
  | query e => e.message

end AccessPolicy
