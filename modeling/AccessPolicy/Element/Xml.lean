import AccessPolicy.Element.Basic

/-!
# Elements as XML

An element is written on lines of its own, two blanks further in than its
parent. Attributes come in the order of their names. An element with neither
text nor children is closed in its opening tag; one without children has its
text and its closing tag on the same line.
-/

namespace AccessPolicy

namespace Element

/-- A character of a text, written so that it is no markup. -/
def escapeText (c : Char) : List Char :=
  if c == '&' then "&amp;".toList
  else if c == '<' then "&lt;".toList
  else if c == '>' then "&gt;".toList
  else [c]

/-- A character of an attribute value. The quotes around the value are double
quotes. -/
def escapeValue (c : Char) : List Char :=
  if c == '"' then "&quot;".toList else escapeText c

/-- The attributes behind a tag. -/
def xmlAttributes (attributes : Attributes) : List Char :=
  attributes.entries.flatMap fun (key, value) =>
    [' '] ++ key.toList ++ "=\"".toList ++ value.toList.flatMap escapeValue ++ ['"']

/-- The indentation of a line. -/
def xmlIndent (depth : Nat) : List Char :=
  List.replicate (2 * depth) ' '

mutual

/-- The lines of an element at a depth. -/
def xmlLines (depth : Nat) : Element → List Char
  | ⟨tag, attributes, text, children⟩ =>
    let content := (text.getD "").toList.flatMap escapeText
    xmlIndent depth ++ ['<'] ++ tag.toList ++ xmlAttributes attributes ++
      match content, children with
      | [], [] => "/>\n".toList
      | _, [] => ['>'] ++ content ++ "</".toList ++ tag.toList ++ ">\n".toList
      | _, _ =>
        ['>'] ++ content ++ ['\n'] ++ xmlLinesAll (depth + 1) children ++ xmlIndent depth ++
          "</".toList ++ tag.toList ++ ">\n".toList

/-- The lines of a list of elements at a depth. -/
def xmlLinesAll (depth : Nat) : List Element → List Char
  | [] => []
  | e :: es => xmlLines depth e ++ xmlLinesAll depth es

end

/-- The element as XML text. -/
def toXml (e : Element) : String :=
  String.ofList (xmlLines 0 e)

end Element

end AccessPolicy
