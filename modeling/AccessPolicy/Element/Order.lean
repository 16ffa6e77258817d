import AccessPolicy.Element.Basic

/-!
# The canonical order of elements

The children of every node are put in order by their text, their tag, their
`name` attribute and the text of the first attachment they hold; where one
child has such a value and another does not, the one that has it comes first.
Children that agree in all of these keep their order. The trees below a node
are put in order before the node.
-/

namespace AccessPolicy

/-- The order of optional values in which a value comes before none. -/
def comparePresent (a b : Option String) : Ordering :=
  match a, b with
  | some a, some b => compare a b
  | some _, none => .lt
  | none, some _ => .gt
  | none, none => .eq

namespace Element

/-- The tag of the element that holds the attachments of a rule. -/
def attachmentsTag : String := "attachments"

/-- The tag of an attachment. -/
def attachmentTag : String := "attachment"

/-- The attribute that names a profile. -/
def nameAttribute : String := "name"

/-- The text of the first attachment in the first list of attachments. -/
def firstAttachment? (e : Element) : Option String :=
  ((e.child? attachmentsTag).bind fun list => list.child? attachmentTag).bind (·.text)

/-- The order in which siblings come. -/
def compareSiblings (a b : Element) : Ordering :=
  (comparePresent a.text b.text).then <|
    (compare a.tag b.tag).then <|
      (comparePresent (a.attribute? nameAttribute) (b.attribute? nameAttribute)).then <|
        comparePresent a.firstAttachment? b.firstAttachment?

mutual

/-- The element with the children of all nodes in order. -/
def sort : Element → Element
  | ⟨tag, attributes, text, children⟩ =>
    ⟨tag, attributes, text,
      (sortAll children).mergeSort fun a b => (compareSiblings a b).isLE⟩

/-- Each element of a list, put in order by itself. -/
def sortAll : List Element → List Element
  | [] => []
  | e :: es => sort e :: sortAll es

end

end Element

end AccessPolicy
