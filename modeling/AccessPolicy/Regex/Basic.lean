import AccessPolicy.Regex.CharSet

/-!
# Regular expressions over a text with positions

An expression is matched between two positions of a text. Assertions look at
the characters on both sides of a position, so a match is a relation between
positions of one text and not a set of words: `Matches text r i j` says that
`r` matches from position `i` to position `j`. `Found` is the question that a
search asks: does the expression match anywhere in the text?
-/

namespace AccessPolicy

namespace Regex

open AccessPolicy.Text

/-- A condition on a position. -/
inductive Assertion where
  | textStart
  | textEnd
  | wordBoundary
  | notWordBoundary
  | wordStart
  | wordEnd
deriving DecidableEq, Repr

namespace Assertion

/-- Whether the condition holds between two characters. At the ends of the
text there is no character. -/
def holds (a : Assertion) (before after : Option Char) : Bool :=
  let wordBefore := before.any isWordChar
  let wordAfter := after.any isWordChar
  match a with
  | textStart => before.isNone
  | textEnd => after.isNone
  | wordBoundary => wordBefore != wordAfter
  | notWordBoundary => wordBefore == wordAfter
  | wordStart => !wordBefore && wordAfter
  | wordEnd => wordBefore && !wordAfter

end Assertion

end Regex

/-- A regular expression. A group keeps its parentheses, because they count
towards the depth. -/
inductive Regex where
  | empty
  | set (s : Regex.CharSet)
  | assert (a : Regex.Assertion)
  | group (body : Regex)
  | cat (first second : Regex)
  | alt (left right : Regex)
  | star (body : Regex)
  | plus (body : Regex)
  | opt (body : Regex)
deriving DecidableEq, Repr

namespace Regex

/-- The parts in sequence. -/
def catAll : List Regex → Regex
  | [] => empty
  | [r] => r
  | r :: rest => cat r (catAll rest)

/-- The choice between the parts. -/
def altAll : List Regex → Regex
  | [] => empty
  | [r] => r
  | r :: rest => alt r (altAll rest)

/-- How deep the parts of an expression nest. The parts of one sequence stand
on one level, and so do the branches of one choice. -/
def depth : Regex → Nat
  | empty => 0
  | set s => s.depth
  | assert _ => 0
  | group body => body.depth + 1
  | cat first (cat second third) => max (first.depth + 1) (cat second third).depth
  | cat first second => max first.depth second.depth + 1
  | alt left (alt middle right) => max (left.depth + 1) (alt middle right).depth
  | alt left right => max left.depth right.depth + 1
  | star body => body.depth + 1
  | plus body => body.depth + 1
  | opt body => body.depth + 1

/-- The character before a position. -/
def charBefore? (text : List Char) : Nat → Option Char
  | 0 => none
  | i + 1 => text[i]?

/-- The expression matches the part of the text between two positions. -/
inductive Matches (text : List Char) : Regex → Nat → Nat → Prop where
  | empty {i : Nat} : Matches text empty i i
  | set {s : CharSet} {i : Nat} {c : Char} :
      text[i]? = some c → s.contains c = true → Matches text (set s) i (i + 1)
  | assert {a : Assertion} {i : Nat} :
      i ≤ text.length → a.holds (charBefore? text i) text[i]? = true →
      Matches text (assert a) i i
  | group {r : Regex} {i j : Nat} : Matches text r i j → Matches text (group r) i j
  | cat {r s : Regex} {i j k : Nat} :
      Matches text r i j → Matches text s j k → Matches text (cat r s) i k
  | altLeft {r s : Regex} {i j : Nat} : Matches text r i j → Matches text (alt r s) i j
  | altRight {r s : Regex} {i j : Nat} : Matches text s i j → Matches text (alt r s) i j
  | starNil {r : Regex} {i : Nat} : Matches text (star r) i i
  | starCons {r : Regex} {i j k : Nat} :
      Matches text r i j → Matches text (star r) j k → Matches text (star r) i k
  | plus {r : Regex} {i j k : Nat} :
      Matches text r i j → Matches text (star r) j k → Matches text (plus r) i k
  | optNil {r : Regex} {i : Nat} : Matches text (opt r) i i
  | optSome {r : Regex} {i j : Nat} : Matches text r i j → Matches text (opt r) i j

/-- The expression matches some part of the text. -/
def Found (r : Regex) (text : List Char) : Prop :=
  ∃ i j, i ≤ text.length ∧ Matches text r i j

end Regex

end AccessPolicy
