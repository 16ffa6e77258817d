import AccessPolicy.Regex.Basic

/-!
# Searching a text

The search carries sets of positions through an expression. A set of positions
is a number whose bit `i` tells whether position `i` belongs to it, so that a
whole set moves over a character with one shift. `Regex.advance` gives the
positions at which the matches end that begin in a given set; what is found is
whether any match ends at all. The work grows with the size of the expression
times the size of the text, whatever the expression.
-/

namespace AccessPolicy.Regex

namespace Positions

/-- The positions before the characters that satisfy a condition. -/
def ofChars (p : Char → Bool) : List Char → Nat
  | [] => 0
  | c :: cs => (p c).toNat + 2 * ofChars p cs

/-- The positions at which an assertion holds, given the character before the
text. -/
def ofAssertion (a : Assertion) (before : Option Char) : List Char → Nat
  | [] => (a.holds before none).toNat
  | c :: cs => (a.holds before (some c)).toNat + 2 * ofAssertion a (some c) cs

/-- All positions of a text, its end among them. -/
def all (text : List Char) : Nat :=
  1 <<< (text.length + 1) - 1

/-- The positions reached by any number of steps, when no more than `rounds`
steps are needed. -/
def closure (step : Nat → Nat) : Nat → Nat → Nat
  | 0, reached => reached
  | rounds + 1, reached =>
    if reached ||| step reached = reached then reached
    else closure step rounds (reached ||| step reached)

theorem testBit_ofChars (p : Char → Bool) (text : List Char) (i : Nat) :
    (ofChars p text).testBit i = text[i]?.any p := by
  induction text generalizing i with
  | nil => simp [ofChars]
  | cons c cs ih =>
    cases i with
    | zero => cases h : p c <;> simp [ofChars, h]
    | succ i =>
      rw [Nat.testBit_succ]
      have : (ofChars p (c :: cs)) / 2 = ofChars p cs := by
        cases h : p c <;> simp only [ofChars, h, Bool.toNat_true, Bool.toNat_false] <;> omega
      rw [this, ih]
      simp

theorem testBit_all (text : List Char) (i : Nat) :
    (all text).testBit i = decide (i ≤ text.length) := by
  simp only [all, Nat.one_shiftLeft, Nat.testBit_two_pow_sub_one, Nat.lt_add_one_iff]

end Positions

/-- The ends of the matches that begin in a set of positions. -/
def advance (text : List Char) : Regex → Nat → Nat
  | empty, starts => starts
  | set s, starts => (starts &&& Positions.ofChars s.contains text) * 2
  | assert a, starts => starts &&& Positions.ofAssertion a none text
  | group r, starts => advance text r starts
  | cat r s, starts => advance text s (advance text r starts)
  | alt r s, starts => advance text r starts ||| advance text s starts
  | star r, starts => Positions.closure (advance text r) text.length starts
  | plus r, starts => Positions.closure (advance text r) text.length (advance text r starts)
  | opt r, starts => starts ||| advance text r starts

/-- Whether the expression matches some part of the text. -/
def isFound (r : Regex) (text : List Char) : Bool :=
  r.advance text (Positions.all text) != 0

end AccessPolicy.Regex
