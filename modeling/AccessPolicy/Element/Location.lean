import AccessPolicy.Element.Basic

/-!
# Locations

A location names a node by the way to it: from a base, each step goes to the
child with a tag that comes at a given place among its siblings with the same
tag, counted from one. A location is written with a slash before each step,
except before the first step from an empty base: `profiles/profile[2]`.
-/

namespace AccessPolicy

/-- A step to a child: its tag, and its place among the siblings with that
tag. -/
structure LocationStep where
  tag : String
  index : Nat
deriving DecidableEq, Repr

/-- A way from a base. -/
structure Location where
  base : String
  steps : List LocationStep
deriving DecidableEq, Repr

namespace LocationStep

/-- A step as text. -/
def toText (step : LocationStep) : String :=
  step.tag ++ "[" ++ toString step.index ++ "]"

end LocationStep

namespace Location

/-- The way that has no step. -/
def ofBase (base : String) : Location := ⟨base, []⟩

/-- One step further. -/
def down (location : Location) (tag : String) (index : Nat) : Location :=
  { location with steps := location.steps ++ [⟨tag, index⟩] }

/-- The text of a location followed by a step. -/
def appendStep (location : String) (step : LocationStep) : String :=
  if location.isEmpty then step.toText else location ++ "/" ++ step.toText

/-- A location as text. -/
def toText (location : Location) : String :=
  location.steps.foldl appendStep location.base

theorem toText_down (location : Location) (tag : String) (index : Nat) :
    (location.down tag index).toText = appendStep location.toText ⟨tag, index⟩ := by
  simp [toText, down]

end Location

namespace Element

/-- The elements of a list with their places among those with the same tag,
where `before` are the tags of the siblings ahead. -/
def placed (before : List String) : List Element → List (Nat × Element)
  | [] => []
  | e :: es => (before.count e.tag + 1, e) :: placed (e.tag :: before) es

/-- The node that a step leads to. -/
def step? (e : Element) (step : LocationStep) : Option Element :=
  match step.index with
  | 0 => none
  | index + 1 => (e.childrenNamed step.tag)[index]?

/-- The node that steps lead to. -/
def follow? (e : Element) (steps : List LocationStep) : Option Element :=
  steps.foldlM step? e

end Element

end AccessPolicy
