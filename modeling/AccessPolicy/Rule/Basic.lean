import AccessPolicy.Pattern.Cache
import AccessPolicy.Vocabulary

/-!
# Rules

A rule allows or denies some permissions on the objects of one kind whose names
match one of its attachments. An attachment is the text of a pattern; it is
compiled only where it is matched.
-/

namespace AccessPolicy

/-- A statement about objects of one kind. -/
structure Rule where
  kind : ObjectKind
  qualifier : Qualifier
  modifier : Option String := none
  attachments : List String := []
  permissions : List Permission := []
deriving DecidableEq, Repr

namespace Rule

/-- A rule that lists nothing yet. -/
def ofKind (kind : ObjectKind) (qualifier : Qualifier) : Rule :=
  { kind, qualifier }

/-- Sets the modifier. -/
def withModifier (r : Rule) (modifier : String) : Rule :=
  { r with modifier := some modifier }

/-- Appends an attachment. -/
def withAttachment (r : Rule) (pattern : String) : Rule :=
  { r with attachments := r.attachments ++ [pattern] }

/-- Appends a permission. -/
def withPermission (r : Rule) (permission : Permission) : Rule :=
  { r with permissions := r.permissions ++ [permission] }

/-- The listed permissions, each once and in the order of all permissions. -/
def permissionSet (r : Rule) : List Permission :=
  Permission.all.filter fun p => r.permissions.contains p

/-- Whether the rule lists a permission. -/
def lists (r : Rule) (permission : Permission) : Bool :=
  r.permissions.contains permission

/-- Whether an attachment matches the name of an object. -/
def covers (r : Rule) (object : String) : Cached Bool :=
  Cache.matchesAny r.attachments object

/-- Whether the rule speaks about a permission on an object. No pattern is
compiled when the permission is not listed. -/
def appliesTo (r : Rule) (object : String) (permission : Permission) : Cached Bool :=
  if r.lists permission then r.covers object else return false

/-- Two rules list the same permissions, in whatever order and number, exactly
when their permission sets are equal. -/
theorem permissionSet_eq_iff (r s : Rule) :
    r.permissionSet = s.permissionSet ↔ ∀ p, p ∈ r.permissions ↔ p ∈ s.permissions := by
  constructor
  · intro h p
    have hr : p ∈ r.permissionSet ↔ p ∈ r.permissions := by
      simp [permissionSet, Permission.mem_all]
    have hs : p ∈ s.permissionSet ↔ p ∈ s.permissions := by
      simp [permissionSet, Permission.mem_all]
    rw [← hr, ← hs, h]
  · intro h
    unfold permissionSet
    congr 1
    funext p
    simpa using h p

end Rule

end AccessPolicy
