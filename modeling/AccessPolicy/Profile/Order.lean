import AccessPolicy.Element.Order
import AccessPolicy.Profile.Element

/-!
# The canonical order of profiles

Attachments are put in order by their text and permissions by their spelling.
The items of a profile are put in the order that their elements have as
siblings: by tag, then profiles by name, then rules by their first attachment.
Items that agree in these keep their order.
-/

namespace AccessPolicy

/-- The texts in ascending order. -/
def sortTexts (texts : List String) : List String :=
  texts.mergeSort fun a b => decide (a ≤ b)

namespace Rule

/-- The rule with its attachments and permissions in order. -/
def sort (r : Rule) : Rule :=
  { r with
    attachments := sortTexts r.attachments
    permissions := r.permissions.mergeSort fun p q => decide (p.toText ≤ q.toText) }

end Rule

namespace Item

/-- The tag of an item's element. -/
def tag : Item Profile → String
  | rule r => r.kind.toText
  | profile _ => Element.profileTag

/-- The name of an item, if it is a profile. -/
def name? : Item Profile → Option String
  | rule _ => none
  | profile p => some p.name

/-- The first attachment of an item, if it is a rule. -/
def firstAttachment? : Item Profile → Option String
  | rule r => r.attachments.head?
  | profile _ => none

/-- The order in which items come. -/
def compareSiblings (a b : Item Profile) : Ordering :=
  (compare a.tag b.tag).then <|
    (comparePresent a.name? b.name?).then <|
      comparePresent a.firstAttachment? b.firstAttachment?

end Item

namespace Profile

mutual

/-- The profile with all its parts in order. -/
def sort : Profile → Profile
  | ⟨name, attachments, modifier, items⟩ =>
    ⟨name, sortTexts attachments, modifier,
      (sortParts items).mergeSort fun a b => (a.compareSiblings b).isLE⟩

/-- The items, each put in order by itself. -/
def sortParts : List (Item Profile) → List (Item Profile)
  | [] => []
  | .rule r :: items => .rule r.sort :: sortParts items
  | .profile p :: items => .profile (sort p) :: sortParts items

end

end Profile

end AccessPolicy
