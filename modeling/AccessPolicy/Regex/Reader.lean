import AccessPolicy.Regex.Token

/-!
# Reading a written expression

`read?` gives the expression that a text writes, or nothing when the text is
refused: tokens that cannot be cut, parentheses that do not pair, a quantifier
with nothing before it, or parts that nest deeper than `nestLimit`.

The tokens are taken from left to right. A `Reader` holds what is still open:
the branches of the groups around the current place, innermost first, and the
bracketed sets. Reading two texts one after the other is reading their
concatenation (`Reader.run_append`).
-/

namespace AccessPolicy.Regex

/-- The branches of a group so far, and the parts of the branch being read,
each with the latest first. -/
structure Branches where
  done : List Regex
  parts : List Regex
deriving DecidableEq, Repr

namespace Branches

/-- A group of which nothing is read. -/
def empty : Branches := ⟨[], []⟩

/-- Appends a part to the branch being read. -/
def push (b : Branches) (r : Regex) : Branches :=
  { b with parts := r :: b.parts }

/-- Ends the branch being read and begins the next. -/
def next (b : Branches) : Branches :=
  ⟨catAll b.parts.reverse :: b.done, []⟩

/-- The choice between all branches. -/
def toRegex (b : Branches) : Regex :=
  altAll b.next.done.reverse

end Branches

/-- A bracketed set being read: the operator that waits for its right side,
with its left side, and the members after it, the latest first. -/
structure OpenSet where
  negated : Bool
  waiting : Option (SetOp × CharSet)
  members : List CharSet
deriving DecidableEq, Repr

namespace OpenSet

/-- Appends a member. -/
def push (s : OpenSet) (member : CharSet) : OpenSet :=
  { s with members := member :: s.members }

/-- What is read so far: the waiting operator applied to the members. -/
def body (s : OpenSet) : CharSet :=
  let right := CharSet.unionAll s.members.reverse
  match s.waiting with
  | none => right
  | some (o, left) => .op o left right

/-- Makes all that is read the left side of an operator. -/
def operate (s : OpenSet) (o : SetOp) : OpenSet :=
  ⟨s.negated, some (o, s.body), []⟩

/-- The set, when its bracket closes. -/
def toCharSet (s : OpenSet) : CharSet :=
  .bracket s.negated s.body

end OpenSet

/-- What is open at a place of the text. After a quantifier, a `?` only asks
for the shortest match, which has no influence on whether there is one. -/
structure Reader where
  enclosing : List Branches
  current : Branches
  sets : List OpenSet
  afterQuantifier : Bool
deriving DecidableEq, Repr

namespace Reader

/-- Nothing is open and nothing is read. -/
def start : Reader := ⟨[], .empty, [], false⟩

/-- Appends a part. -/
def push (r : Reader) (part : Regex) : Reader :=
  { r with current := r.current.push part, afterQuantifier := false }

/-- Applies a quantifier to the part before it. -/
def quantify (r : Reader) (q : Quantifier) : Option Reader :=
  match r.current.parts with
  | [] => none
  | part :: parts =>
    some { r with
      current := { r.current with parts := q.apply part :: parts }
      afterQuantifier := true }

/-- Closes the innermost group. -/
def closeGroup (r : Reader) : Option Reader :=
  match r.enclosing with
  | [] => none
  | outer :: enclosing =>
    some ⟨enclosing, outer.push (.group r.current.toRegex), r.sets, false⟩

/-- Closes the innermost bracketed set. It becomes a member of the set around
it, or else a part. -/
def closeSet (r : Reader) : Option Reader :=
  match r.sets with
  | [] => none
  | [s] => some ({ r with sets := [] }.push (.set s.toCharSet))
  | s :: outer :: sets => some { r with sets := outer.push s.toCharSet :: sets }

/-- Takes one token. -/
def step (r : Reader) : Token → Option Reader
  | .atom part => some (r.push part)
  | .bar => some { r with current := r.current.next, afterQuantifier := false }
  | .groupOpen =>
    some ⟨r.current :: r.enclosing, .empty, r.sets, false⟩
  | .groupClose => r.closeGroup
  | .quantifier q =>
    if r.afterQuantifier && q == .zeroOrOne then some { r with afterQuantifier := false }
    else r.quantify q
  | .setOpen negated => some { r with sets := ⟨negated, none, []⟩ :: r.sets }
  | .setMember member =>
    match r.sets with
    | [] => none
    | s :: sets => some { r with sets := s.push member :: sets }
  | .setOp o =>
    match r.sets with
    | [] => none
    | s :: sets => some { r with sets := s.operate o :: sets }
  | .setClose => r.closeSet

/-- Takes tokens from left to right. -/
def run (r : Reader) : List Token → Option Reader
  | [] => some r
  | t :: ts => (r.step t).bind fun next => next.run ts

theorem run_append (r : Reader) (ts us : List Token) :
    r.run (ts ++ us) = (r.run ts).bind fun next => next.run us := by
  induction ts generalizing r with
  | nil => rfl
  | cons t ts ih => cases h : r.step t <;> simp [run, h, ih]

/-- The expression, when nothing is open any more. -/
def finish (r : Reader) : Option Regex :=
  if r.enclosing.isEmpty && r.sets.isEmpty then some r.current.toRegex else none

end Reader

/-- Expressions whose parts nest deeper are refused. -/
def nestLimit : Nat := 250

/-- The expression that a list of tokens writes. -/
def ofTokens? (ts : List Token) : Option Regex :=
  (Reader.start.run ts).bind Reader.finish

/-- The expression that a text writes. -/
def read? (text : List Char) : Option Regex := do
  let r ← ofTokens? (← tokens? 0 text)
  if r.depth ≤ nestLimit then some r else none

end AccessPolicy.Regex
