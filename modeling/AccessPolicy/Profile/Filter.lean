import AccessPolicy.Profile.Basic

/-!
# Filtering profiles

A profile is kept for a subject when one of its attachments matches the
subject's name, and the profiles in a kept profile are filtered in the same
way. A profile that is not kept goes with everything in it.
-/

namespace AccessPolicy

namespace Profile

mutual

/-- The profile as far as it is for a subject, if it is at all. -/
def filter (subject : String) : Profile → Cached (Option Profile)
  | ⟨name, attachments, modifier, items⟩ => do
    if ← Cache.matchesAny attachments subject then
      let kept ← filterItems subject items
      return some ⟨name, attachments, modifier, kept⟩
    else
      return none

/-- The items without the profiles that are not for a subject. -/
def filterItems (subject : String) : List (Item Profile) → Cached (List (Item Profile))
  | [] => return []
  | .rule r :: items => do
    let kept ← filterItems subject items
    return .rule r :: kept
  | .profile p :: items => do
    let first ← filter subject p
    let kept ← filterItems subject items
    return (first.map Item.profile).toList ++ kept

end

/-- The profiles of a list as far as they are for a subject. -/
def filterAll (subject : String) : List Profile → Cached (List Profile)
  | [] => return []
  | p :: ps => do
    let first ← filter subject p
    let kept ← filterAll subject ps
    return first.toList ++ kept

end Profile

end AccessPolicy
