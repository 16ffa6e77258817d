import AccessPolicy.Text.Blank
import AccessPolicy.Text.Category

/-!
# Sets of characters

The sets an expression can name: single characters, ranges, named properties,
bracketed sets and the operators between them. `CharSet.contains` decides
membership; every operator is pointwise.
-/

namespace AccessPolicy.Regex

open AccessPolicy.Text

/-- A named property of characters. The properties with an ASCII name hold of
no character above 127. -/
inductive Property where
  | digit
  | space
  | word
  | category (name : Category)
  | asciiAlnum
  | asciiAlpha
  | ascii
  | asciiBlank
  | asciiControl
  | asciiDigit
  | asciiGraph
  | asciiLower
  | asciiPrint
  | asciiPunct
  | asciiSpace
  | asciiUpper
  | asciiWord
  | asciiHexDigit
deriving DecidableEq, Repr

namespace Property

/-- Whether a character has the property. -/
def holds : Property → Char → Bool
  | digit, c => isDecimalDigit c
  | space, c => isBlank c
  | word, c => isWordChar c
  | category name, c => name.contains c
  | asciiAlnum, c => c.isAlphanum
  | asciiAlpha, c => c.isAlpha
  | ascii, c => c.toNat < 128
  | asciiBlank, c => c == '\t' || c == ' '
  | asciiControl, c => c.toNat < 32 || c.toNat == 127
  | asciiDigit, c => c.isDigit
  | asciiGraph, c => 33 ≤ c.toNat && c.toNat ≤ 126
  | asciiLower, c => c.isLower
  | asciiPrint, c => 32 ≤ c.toNat && c.toNat ≤ 126
  | asciiPunct, c => 33 ≤ c.toNat && c.toNat ≤ 126 && !c.isAlphanum
  | asciiSpace, c => (9 ≤ c.toNat && c.toNat ≤ 13) || c == ' '
  | asciiUpper, c => c.isUpper
  | asciiWord, c => c.isAlphanum || c == '_'
  | asciiHexDigit, c => c.isDigit || ('a' ≤ c && c ≤ 'f') || ('A' ≤ c && c ≤ 'F')

/-- The property that a name between `[:` and `:]` stands for. -/
def ofAsciiName? (name : List Char) : Option Property :=
  match String.ofList name with
  | "alnum" => some asciiAlnum
  | "alpha" => some asciiAlpha
  | "ascii" => some ascii
  | "blank" => some asciiBlank
  | "cntrl" => some asciiControl
  | "digit" => some asciiDigit
  | "graph" => some asciiGraph
  | "lower" => some asciiLower
  | "print" => some asciiPrint
  | "punct" => some asciiPunct
  | "space" => some asciiSpace
  | "upper" => some asciiUpper
  | "word" => some asciiWord
  | "xdigit" => some asciiHexDigit
  | _ => none

end Property

/-- An operator between two sets. -/
inductive SetOp where
  | inter
  | diff
  | symmDiff
deriving DecidableEq, Repr

/-- A set of characters as it is written. A bracketed set keeps its brackets,
because they count towards the depth of an expression. -/
inductive CharSet where
  | none
  | single (c : Char)
  | range (first last : Char)
  | property (negated : Bool) (name : Property)
  | bracket (negated : Bool) (body : CharSet)
  | union (left right : CharSet)
  | op (o : SetOp) (left right : CharSet)
deriving DecidableEq, Repr

namespace CharSet

/-- Membership. -/
def contains : CharSet → Char → Bool
  | none, _ => false
  | single d, c => c == d
  | range first last, c => first ≤ c && c ≤ last
  | property negated name, c => name.holds c != negated
  | bracket negated body, c => body.contains c != negated
  | union left right, c => left.contains c || right.contains c
  | op .inter left right, c => left.contains c && right.contains c
  | op .diff left right, c => left.contains c && !right.contains c
  | op .symmDiff left right, c => left.contains c != right.contains c

/-- The members of a bracketed set, joined. -/
def unionAll : List CharSet → CharSet
  | [] => none
  | [s] => s
  | s :: rest => union s (unionAll rest)

/-- How deep the parts of a set nest. Joined members stand on one level. -/
def depth : CharSet → Nat
  | bracket _ body => body.depth + 1
  | union left (union middle right) => max (left.depth + 1) (union middle right).depth
  | union left right => max left.depth right.depth + 1
  | op _ left right => max left.depth right.depth + 1
  | _ => 0

/-- A joined set holds what one of its members holds. -/
theorem contains_unionAll (sets : List CharSet) (c : Char) :
    (unionAll sets).contains c = sets.any fun s => s.contains c := by
  induction sets with
  | nil => rfl
  | cons s rest ih =>
    cases rest with
    | nil => simp [unionAll]
    | cons t rest => simp only [unionAll, contains, List.any_cons] at ih ⊢; rw [ih]

end CharSet

end AccessPolicy.Regex
