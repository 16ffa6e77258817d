import AccessPolicy.Element.Order
import AccessPolicy.Error
import AccessPolicy.Rule.Basic

/-!
# Rules as elements

A rule is an element whose tag is its kind. It carries the qualifier and the
modifier as attributes, and holds an element with its attachments and one with
its permissions, each named by a tag. Reading accepts several of either and
joins them, but a rule must have an attachment, and must name its permissions
even if there are none.
-/

namespace AccessPolicy

open AccessPolicy.Text

/-- The tag of the element that holds the permissions of a rule. -/
def Element.permissionsTag : String := "permissions"

/-- The attribute with the qualifier of a rule. -/
def Element.qualifierAttribute : String := "qualifier"

/-- The attribute with the modifier of a rule or a profile. -/
def Element.modifierAttribute : String := "modifier"

open Element

/-- An attachment as an element. -/
def attachmentElement (pattern : String) : Element :=
  (ofTag attachmentTag).withText pattern

/-- The attachment of an element: its text without the blanks around it. -/
def readAttachment (location : Location) (e : Element) : Except StructureError String :=
  if e.tag ≠ attachmentTag then .error (.unexpectedElement e.tag location)
  else
    let pattern := trim (e.text.getD "")
    if pattern.isEmpty then .error (.missingField "text()" location) else .ok pattern

/-- The permission of an element. -/
def readPermission (location : Location) (e : Element) : Except StructureError Permission :=
  match Permission.ofText? e.tag with
  | some permission => .ok permission
  | none => .error (.unknownPermission e.tag location)

/-- Reads each element of a list, giving it its location below a place. -/
def readPlaced {α : Type} (location : Location)
    (read : Location → Element → Except StructureError α) (es : List Element) :
    Except StructureError (List α) :=
  (placed [] es).mapM fun (index, e) => read (location.down e.tag index) e

namespace Rule

/-- The rule as an element. -/
def toElement (r : Rule) : Element :=
  ((((ofTag r.kind.toText).withAttribute qualifierAttribute r.qualifier.toText).withAttribute?
    modifierAttribute r.modifier).withChild
      ((ofTag attachmentsTag).withChildren (r.attachments.map attachmentElement))).withChild
        ((ofTag permissionsTag).withChildren (r.permissions.map fun p => ofTag p.toText))

/-- What a child of a rule's element contributes. -/
inductive Part where
  | attachments (patterns : List String)
  | permissions (verbs : List Permission)
deriving DecidableEq, Repr

/-- The attachments that a part contributes. -/
def Part.patterns : Part → List String
  | attachments patterns => patterns
  | permissions _ => []

/-- The permissions that a part contributes, if it names any. -/
def Part.permissions? : Part → Option (List Permission)
  | attachments _ => none
  | permissions verbs => some verbs

/-- What a child of a rule's element contributes. -/
def readPart (location : Location) (e : Element) : Except StructureError Part :=
  if e.tag = attachmentsTag then
    (readPlaced location readAttachment e.children).map .attachments
  else if e.tag = permissionsTag then
    (readPlaced location readPermission e.children).map .permissions
  else .error (.unexpectedElement e.tag location)

/-- The kind that a tag names. -/
def readKind (location : Location) (e : Element) : Except StructureError ObjectKind :=
  match ObjectKind.ofText? e.tag with
  | some kind => .ok kind
  | none => .error (.unknownObjectKind e.tag location)

/-- The qualifier of a rule's element. -/
def readQualifier (location : Location) (e : Element) : Except StructureError Qualifier :=
  match e.attribute? qualifierAttribute with
  | none => .error (.missingField ("@" ++ qualifierAttribute) location)
  | some text =>
    match Qualifier.ofText? text with
    | some qualifier => .ok qualifier
    | none => .error (.unknownQualifier text location)

/-- The rule of an element. -/
def ofElement? (location : Location) (e : Element) : Except StructureError Rule := do
  let kind ← readKind location e
  let qualifier ← readQualifier location e
  let parts ← readPlaced location readPart e.children
  let attachments := parts.flatMap Part.patterns
  let permissions := parts.filterMap Part.permissions?
  if attachments.isEmpty then .error (.missingAttachments location)
  else if permissions.isEmpty then .error (.missingPermissions location)
  else
    return ⟨kind, qualifier, e.attribute? modifierAttribute, attachments, permissions.flatten⟩

end Rule

end AccessPolicy
