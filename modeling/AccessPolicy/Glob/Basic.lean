import AccessPolicy.Glob.Error
import AccessPolicy.Glob.Token

/-!
# Globs

A glob is a sequence of parts: characters, wildcards, and pieces of regular
expression that it passes on. `Glob.ofPattern?` reads one from the text of a
pattern. Blanks around the text are dropped, and so are the two anchors `^` and
`$`, because a glob is always anchored.

Groups are read with a stack of what is open. A brace or a parenthesis closes
the innermost group only; where it cannot, a brace is an error and a closing
parenthesis is passed on.
-/

namespace AccessPolicy.Glob

open AccessPolicy.Text

/-- A part of a glob. -/
inductive Part where
  /-- A character that stands for itself. -/
  | char (c : Char)
  /-- A character behind a backslash. -/
  | escape (c : Char)
  /-- Text passed on as it is. -/
  | verbatim (text : List Char)
  /-- A set of characters. -/
  | set (text : List Char)
  /-- A piece of expression that takes no character. -/
  | assertion (text : List Char)
  /-- One character within a segment. -/
  | single
  /-- Characters within a segment. -/
  | star
  /-- Characters across segments. -/
  | globstar
  /-- Any one of several sequences. -/
  | group (alternatives : List (List Part))
deriving Repr, BEq

/-- What a group was opened with. -/
inductive Scope where
  | top
  | brace (offset : Nat)
  | paren
deriving DecidableEq, Repr

/-- A group being read: its finished alternatives and the parts of the one
being read, each with the latest first. -/
structure OpenGroup where
  scope : Scope
  done : List (List Part)
  parts : List Part
deriving Repr

namespace OpenGroup

/-- A group of which nothing is read. -/
def start (scope : Scope) : OpenGroup := ⟨scope, [], []⟩

/-- Appends a part to the alternative being read. -/
def push (g : OpenGroup) (part : Part) : OpenGroup :=
  { g with parts := part :: g.parts }

/-- Ends the alternative being read and begins the next. -/
def next (g : OpenGroup) : OpenGroup :=
  ⟨g.scope, g.parts.reverse :: g.done, []⟩

/-- The group as a part. -/
def toPart (g : OpenGroup) : Part :=
  .group g.next.done.reverse

end OpenGroup

/-- The part that an escaped character makes. -/
def partOfEscape (c : Char) : Part :=
  if c == 'b' || c == 'B' || c == 'A' || c == 'z' then .assertion ['\\', c]
  else if c == 'd' || c == 'D' || c == 'w' || c == 'W' || c == 's' || c == 'S' then
    .set ['\\', c]
  else .escape c

/-- The part that a plain character makes. -/
def partOfChar (c : Char) : Part :=
  if c == '^' then .assertion ['^'] else .char c

/-- The groups open at a place of a glob: those around it, innermost first, and
the innermost of all. -/
structure Reader where
  enclosing : List OpenGroup
  current : OpenGroup
deriving Repr

namespace Reader

/-- Nothing is read. -/
def start : Reader := ⟨[], .start .top⟩

/-- Appends a part. -/
def push (r : Reader) (part : Part) : Reader :=
  { r with current := r.current.push part }

/-- Opens a group. -/
def openGroup (r : Reader) (scope : Scope) : Reader :=
  ⟨r.current :: r.enclosing, .start scope⟩

/-- Closes the innermost group. -/
def closeGroup (r : Reader) : Reader :=
  match r.enclosing with
  | [] => r
  | outer :: enclosing => ⟨enclosing, outer.push r.current.toPart⟩

/-- Ends an alternative. -/
def next (r : Reader) : Reader :=
  { r with current := r.current.next }

/-- Takes one token. A brace that closes no brace is reported with its
offset. -/
def step (r : Reader) (t : Token) : Except Nat Reader :=
  match t, r.current.scope with
  | .char c, _ => .ok (r.push (partOfChar c))
  | .escape c, _ => .ok (r.push (partOfEscape c))
  | .verbatim text, _ => .ok (r.push (.verbatim text))
  | .set text, _ => .ok (r.push (.set text))
  | .single, _ => .ok (r.push .single)
  | .star, _ => .ok (r.push .star)
  | .globstar, _ => .ok (r.push .globstar)
  | .braceOpen offset, _ => .ok (r.openGroup (.brace offset))
  | .braceClose _, .brace _ => .ok r.closeGroup
  | .braceClose offset, _ => .error offset
  | .parenOpen, _ => .ok (r.openGroup .paren)
  | .parenClose, .paren => .ok r.closeGroup
  | .parenClose, _ => .ok (r.push (.assertion [')']))
  | .comma, .brace _ => .ok r.next
  | .comma, _ => .ok (r.push (.char ','))
  | .bar, .top => .ok (r.push (.assertion ['|']))
  | .bar, _ => .ok r.next

/-- Takes tokens from left to right. -/
def run (r : Reader) : List Token → Except Nat Reader
  | [] => .ok r
  | t :: ts => (r.step t).bind fun next => next.run ts

end Reader

/-- The parts that a list of tokens makes. The pattern is named in errors. -/
def ofTokens? (pattern : String) (ts : List Token) : Except PatternError (List Part) :=
  match Reader.start.run ts with
  | .error offset => .error (.unbalancedBrace pattern offset)
  | .ok r =>
    match r.current.scope with
    | .top => .ok r.current.parts.reverse
    | .brace offset => .error (.unbalancedBrace pattern offset)
    | .paren => .error (.unclosedGroup pattern)

/-- Drops a `$` from the end, unless it stands behind an odd number of
backslashes and so is escaped. -/
def dropEndAnchor (glob : List Char) : List Char :=
  match glob.reverse with
  | '$' :: rest =>
    if (rest.takeWhile (· == '\\')).length % 2 = 1 then glob else rest.reverse
  | _ => glob

/-- The tokens of a glob that begins at an offset, without its anchors. -/
def tokens (offset : Nat) (glob : List Char) : List Token :=
  match dropEndAnchor glob with
  | '^' :: rest => scan none (offset + 1) rest
  | body => scan none offset body

/-- The glob that a pattern writes. -/
def ofPattern? (pattern : String) : Except PatternError (List Part) :=
  let chars := pattern.toList
  let glob := trimChars chars
  if glob.isEmpty then .error .empty
  else ofTokens? pattern (tokens (byteLength (chars.takeWhile isBlank)) glob)

end AccessPolicy.Glob
