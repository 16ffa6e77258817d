import AccessPolicy.Collection.Distinct
import AccessPolicy.Profile.Basic

/-!
# Merging rules

Rules that differ only in the objects they name are merged: two rules are alike
when kind, qualifier, modifier and the set of permissions are the same. Of the
rules of one profile that are alike, the first stays in its place and takes over
the attachments of the others. Nested profiles are merged by themselves.
-/

namespace AccessPolicy

namespace Rule

/-- Whether two rules differ in nothing but their attachments and the order and
number of their permissions. -/
def isAlike (r s : Rule) : Bool :=
  r.kind == s.kind && r.qualifier == s.qualifier && r.modifier == s.modifier &&
    r.permissionSet == s.permissionSet

/-- The rule without repeated attachments and permissions. -/
def distinct (r : Rule) : Rule :=
  { r with
    attachments := AccessPolicy.distinct r.attachments
    permissions := AccessPolicy.distinct r.permissions }

/-- The rule with the attachments of another that it does not have. -/
def absorb (r s : Rule) : Rule :=
  { r with attachments := AccessPolicy.distinct (r.attachments ++ s.attachments) }

end Rule

namespace Profile

/-- Merges a rule into the first item that is a rule like it, or appends it. -/
def mergeRule (r : Rule) : List (Item Profile) → List (Item Profile)
  | [] => [.rule r.distinct]
  | .rule s :: items =>
    if s.isAlike r then .rule (s.absorb r) :: items else .rule s :: mergeRule r items
  | .profile p :: items => .profile p :: mergeRule r items

/-- Takes one more item into a list of merged items. -/
def mergeItem (merged : List (Item Profile)) : Item Profile → List (Item Profile)
  | .rule r => mergeRule r merged
  | .profile p => merged ++ [.profile p]

/-- Merges the rules among some items. -/
def mergeItems (items : List (Item Profile)) : List (Item Profile) :=
  items.foldl mergeItem []

mutual

/-- The profile with its rules merged, and those of all profiles in it. -/
def merge : Profile → Profile
  | ⟨name, attachments, modifier, items⟩ =>
    ⟨name, attachments, modifier, mergeItems (mergeNested items)⟩

/-- The items, where each profile is merged by itself. -/
def mergeNested : List (Item Profile) → List (Item Profile)
  | [] => []
  | .rule r :: items => .rule r :: mergeNested items
  | .profile p :: items => .profile (merge p) :: mergeNested items

end

end Profile

end AccessPolicy
