import AccessPolicy.Profile.Order

/-!
# How profiles and rules are written

The element of a rule or a profile is one that has a tag and attributes alone, with
children put in: the two lists of a rule, the attachments and items of a profile. Its
tag and its attributes are told here by the rule or the profile itself.
-/

namespace AccessPolicy

open Element

/-! ## Rules -/

namespace Rule

/-- The element of a rule before its attachments and permissions are put in. -/
def headElement (r : Rule) : Element :=
  ((ofTag r.kind.toText).withAttribute qualifierAttribute r.qualifier.toText).withAttribute?
    modifierAttribute r.modifier

/-- The children of a rule's element. -/
def partElements (r : Rule) : List Element :=
  [(ofTag attachmentsTag).withChildren (r.attachments.map attachmentElement),
    (ofTag permissionsTag).withChildren (r.permissions.map fun p => ofTag p.toText)]

variable (r : Rule)

theorem toElement_eq : r.toElement = r.headElement.withChildren r.partElements :=
  withChildren_withChildren ..

theorem children_headElement : r.headElement.children = [] :=
  children_withAttribute? ..

theorem children_toElement : r.toElement.children = r.partElements := by
  rw [toElement_eq, children_withChildren, children_headElement, List.nil_append]

theorem tag_toElement : r.toElement.tag = r.kind.toText :=
  tag_withAttribute? ..

theorem qualifier_toElement :
    r.toElement.attribute? qualifierAttribute = some r.qualifier.toText := by
  have modifier : qualifierAttribute ≠ modifierAttribute := by decide
  simp [toElement_eq, headElement, modifier]

theorem modifier_toElement : r.toElement.attribute? modifierAttribute = r.modifier := by
  have qualifier : modifierAttribute ≠ qualifierAttribute := by decide
  simp [toElement_eq, headElement, qualifier]

/-- A rule has no name. -/
theorem name?_toElement : r.toElement.attribute? nameAttribute = none := by
  have modifier : nameAttribute ≠ modifierAttribute := by decide
  have qualifier : nameAttribute ≠ qualifierAttribute := by decide
  simp [toElement_eq, headElement, modifier, qualifier]

end Rule

/-! ## Profiles -/

namespace Profile

/-- The element of a profile before its attachments and items are put in. -/
def headElement (name : String) (modifier : Option String) : Element :=
  ((ofTag profileTag).withAttribute nameAttribute name).withAttribute? modifierAttribute modifier

theorem children_headElement (name : String) (modifier : Option String) :
    (headElement name modifier).children = [] :=
  children_withAttribute? ..

variable (p : Profile)

theorem toElement_eq : p.toElement = (headElement p.name p.modifier).withChildren
    (p.attachments.map attachmentElement ++ p.items.map itemElement) := by
  cases p
  rw [toElement, itemElements_eq_map, headElement]

theorem children_toElement : p.toElement.children =
    p.attachments.map attachmentElement ++ p.items.map itemElement := by
  rw [toElement_eq, children_withChildren, children_headElement, List.nil_append]

theorem tag_toElement : p.toElement.tag = profileTag := by
  rw [toElement_eq, tag_withChildren]
  exact tag_withAttribute? ..

theorem name_toElement : p.toElement.attribute? nameAttribute = some p.name := by
  have modifier : nameAttribute ≠ modifierAttribute := by decide
  simp [toElement_eq, headElement, modifier]

theorem modifier_toElement : p.toElement.attribute? modifierAttribute = p.modifier := by
  have name : modifierAttribute ≠ nameAttribute := by decide
  simp [toElement_eq, headElement, name]

/-! ## Items -/

variable (item : Item Profile)

theorem tag_itemElement : (itemElement item).tag = item.tag := by
  cases item with
  | rule r => exact r.tag_toElement
  | profile p => exact p.tag_toElement

theorem text_itemElement : (itemElement item).text = none := by
  cases item with
  | rule r => simp [itemElement, Rule.toElement_eq, Rule.headElement]
  | profile p => simp [itemElement, toElement_eq, headElement]

theorem name?_itemElement : (itemElement item).attribute? nameAttribute = item.name? := by
  cases item with
  | rule r => exact r.name?_toElement
  | profile p => exact p.name_toElement

end Profile

end AccessPolicy
