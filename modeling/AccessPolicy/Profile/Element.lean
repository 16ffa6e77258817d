import AccessPolicy.Profile.Basic
import AccessPolicy.Rule.Element

/-!
# Profiles as elements

A profile is an element with the tag `profile`, its name and its modifier as
attributes. Its children are its attachments and its items. Attachments may
stand anywhere among the items when a profile is read, and come first when it
is written.
-/

namespace AccessPolicy

open Element

/-- The tag of a profile. -/
def Element.profileTag : String := "profile"

namespace Profile

mutual

/-- The profile as an element. -/
def toElement : Profile → Element
  | ⟨name, attachments, modifier, items⟩ =>
    (((ofTag profileTag).withAttribute nameAttribute name).withAttribute?
      modifierAttribute modifier).withChildren
        (attachments.map attachmentElement ++ itemElements items)

/-- The items as elements. -/
def itemElements : List (Item Profile) → List Element
  | [] => []
  | .rule r :: items => r.toElement :: itemElements items
  | .profile p :: items => toElement p :: itemElements items

end

/-- An item as an element. -/
def itemElement : Item Profile → Element
  | .rule r => r.toElement
  | .profile p => p.toElement

theorem itemElements_eq_map (items : List (Item Profile)) :
    itemElements items = items.map itemElement := by
  induction items with
  | nil => rfl
  | cons item items ih => cases item <;> simp [itemElements, itemElement, ih]

/-- What a child of a profile's element contributes. -/
inductive Member where
  | attachment (pattern : String)
  | item (item : Item Profile)

/-- The attachment that a member contributes, if it is one. -/
def Member.attachment? : Member → Option String
  | attachment pattern => some pattern
  | item _ => none

/-- The item that a member contributes, if it is one. -/
def Member.item? : Member → Option (Item Profile)
  | attachment _ => none
  | item i => some i

/-- The name of a profile's element. It must not be empty. -/
def readName (location : Location) (e : Element) : Except StructureError String :=
  match e.attribute? nameAttribute with
  | none => .error (.missingName location)
  | some name => if name.isEmpty then .error (.missingName location) else .ok name

mutual

/-- The profile of an element. -/
def ofElement? (location : Location) : Element → Except StructureError Profile
  | ⟨tag, attributes, text, children⟩ =>
    if tag ≠ profileTag then .error (.unexpectedElement tag location)
    else do
      let name ← readName location ⟨tag, attributes, text, children⟩
      let members ← readMembers location [] children
      return ⟨name, members.filterMap Member.attachment?, attributes.get? modifierAttribute,
        members.filterMap Member.item?⟩

/-- What the children of a profile's element contribute, where `before` are the
tags of the children ahead. -/
def readMembers (location : Location) (before : List String) :
    List Element → Except StructureError (List Member)
  | [] => .ok []
  | e :: es => do
    let here := location.down e.tag (before.count e.tag + 1)
    let first ←
      if e.tag = attachmentTag then (readAttachment here e).map .attachment
      else if e.tag = profileTag then (ofElement? here e).map fun p => .item (.profile p)
      else (Rule.ofElement? here e).map fun r => .item (.rule r)
    let others ← readMembers location (e.tag :: before) es
    return first :: others

end

end Profile

end AccessPolicy
