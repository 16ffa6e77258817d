import AccessPolicy.Glob.Basic
import AccessPolicy.Regex.Reader
import AccessPolicy.Regex.Search

/-!
# The expression a glob stands for

A wildcard that comes right behind a `/` of the name it is matched with must
take at least one character. Whether it does is a fact about the name and not
about the glob: in a group that may end with `/` or with something else, the
wildcard behind it means two things. So each piece of expression is kept split
by how its matches end (`Fragment`), and each part of a glob is written once
for either ending of what comes before it (`Writing`). A sequence keeps only its
last piece split, and repeats the piece for both endings where the next part
is written differently behind them.
-/

namespace AccessPolicy.Glob

/-- What the text matched so far ends with. The empty text does not end with a
separator. -/
inductive Ending where
  | separator
  | other
deriving DecidableEq, Repr

/-- A written expression, also split by how its matches end: `atSeparator` and
`elsewhere` together match what `whole` matches, and one that is missing has no
match. -/
structure Fragment where
  whole : List Char
  atSeparator : Option (List Char)
  elsewhere : Option (List Char)
deriving DecidableEq, Repr

/-- Any characters within a segment. -/
def segmentAny : List Char := "[^/\\x00]*".toList

/-- At least one character within a segment. -/
def segmentSome : List Char := "[^/\\x00]+".toList

/-- Any characters. -/
def pathAny : List Char := "[^\\x00]*".toList

/-- At least one character. -/
def pathSome : List Char := "[^\\x00]+".toList

/-- One character within a segment. -/
def segmentOne : List Char := "[^/\\x00]".toList

/-- The choice between those branches that are not missing. -/
def alternation? (branches : List (Option (List Char))) : Option (List Char) :=
  match branches.filterMap id with
  | [] => none
  | [branch] => some branch
  | present => some ("(?:".toList ++ ['|'].intercalate present ++ [')'])

namespace Fragment

/-- A piece all of whose matches end in one way. -/
def ending (text : List Char) : Ending → Fragment
  | .separator => ⟨text, some text, none⟩
  | .other => ⟨text, none, some text⟩

/-- The piece behind a text. -/
def prepend (head : List Char) (f : Fragment) : Fragment :=
  ⟨head ++ f.whole, f.atSeparator.map (head ++ ·), f.elsewhere.map (head ++ ·)⟩

/-- Two texts in a row, when neither is missing. -/
def join? (head tail : Option (List Char)) : Option (List Char) :=
  match head, tail with
  | some head, some tail => some (head ++ tail)
  | _, _ => none

/-- `afterSeparator` behind the matches of `f` that end with a separator, and
`afterOther` behind the rest. -/
def branch (f afterSeparator afterOther : Fragment) : Fragment where
  whole :=
    (alternation? [join? f.atSeparator (some afterSeparator.whole),
      join? f.elsewhere (some afterOther.whole)]).getD []
  atSeparator :=
    alternation? [join? f.atSeparator afterSeparator.atSeparator,
      join? f.elsewhere afterOther.atSeparator]
  elsewhere :=
    alternation? [join? f.atSeparator afterSeparator.elsewhere,
      join? f.elsewhere afterOther.elsewhere]

end Fragment

/-- A part of a glob, written for both endings of what comes before it. -/
structure Writing where
  afterSeparator : Fragment
  afterOther : Fragment
deriving DecidableEq, Repr

namespace Writing

/-- A part that is written in one way. -/
def always (f : Fragment) : Writing := ⟨f, f⟩

/-- How the part is written behind an ending. -/
def after (w : Writing) : Ending → Fragment
  | .separator => w.afterSeparator
  | .other => w.afterOther

end Writing

/-- Whether an expression is read and found in the text `/`. -/
def findsSeparator (text : List Char) : Bool :=
  match Regex.read? (['^'] ++ text ++ ['$']) with
  | some r => r.isFound ['/']
  | none => false

/-- A set, split by whether the character it takes is a separator. A set that
cannot be read is left whole, and is refused with the expression it is in. -/
def setFragment (text : List Char) : Fragment :=
  if findsSeparator text then
    let rest := ['['] ++ text ++ "&&[^/]]".toList
    ⟨text, some ['/'], if (Regex.read? rest).isSome then some rest else none⟩
  else .ending text .other

/-- A character, with a backslash before those that are operators of
expressions but not of globs. -/
def charText (c : Char) : List Char :=
  if c == '.' || c == '+' || c == '$' then ['\\', c] else [c]

/-- How a text that takes one given character ends. -/
def endingOf (c : Char) : Ending :=
  if c == '/' then .separator else .other

/-- A sequence being written: the text before its last piece, and that piece. -/
structure Run where
  head : List Char
  last : Fragment
deriving DecidableEq, Repr

namespace Run

/-- The sequence without parts. -/
def start (prior : Ending) : Run := ⟨[], .ending [] prior⟩

/-- Appends a part. -/
def extend (run : Run) (w : Writing) : Run :=
  match run.last.atSeparator, run.last.elsewhere with
  | some _, none => ⟨run.head ++ run.last.whole, w.afterSeparator⟩
  | some _, some _ =>
    if w.afterSeparator = w.afterOther then ⟨run.head ++ run.last.whole, w.afterOther⟩
    else ⟨run.head, run.last.branch w.afterSeparator w.afterOther⟩
  | none, _ => ⟨run.head ++ run.last.whole, w.afterOther⟩

/-- The sequence as one piece. -/
def toFragment (run : Run) : Fragment :=
  run.last.prepend run.head

end Run

/-- A sequence of parts behind an ending. -/
def sequence (prior : Ending) (parts : List Writing) : Fragment :=
  (parts.foldl Run.extend (Run.start prior)).toFragment

/-- A choice between pieces, in parentheses. -/
def choice (pieces : List Fragment) : Fragment where
  whole := ['('] ++ ['|'].intercalate (pieces.map (·.whole)) ++ [')']
  atSeparator := alternation? (pieces.map (·.atSeparator))
  elsewhere := alternation? (pieces.map (·.elsewhere))

mutual

/-- How a part is written. -/
def Part.writing : Part → Writing
  | .char c => .always (.ending (charText c) (endingOf c))
  | .escape c => .always (.ending ['\\', c] (endingOf c))
  | .verbatim text => .always (.ending text .other)
  | .set text => .always (setFragment text)
  | .assertion text => ⟨.ending text .separator, .ending text .other⟩
  | .single => .always (.ending segmentOne .other)
  | .star => ⟨.ending segmentSome .other, .ending segmentAny .other⟩
  | .globstar =>
    ⟨⟨pathSome, some (pathAny ++ ['/']), some (pathAny ++ segmentOne)⟩,
      ⟨pathAny, some (pathAny ++ ['/']),
        some ("(?:".toList ++ pathAny ++ segmentOne ++ ")?".toList)⟩⟩
  | .group alternatives =>
    let written := writingsOfAlternatives alternatives
    ⟨choice (written.map (sequence .separator)), choice (written.map (sequence .other))⟩

/-- How the parts of a sequence are written. -/
def writings : List Part → List Writing
  | [] => []
  | part :: parts => part.writing :: writings parts

/-- How the parts of several sequences are written. -/
def writingsOfAlternatives : List (List Part) → List (List Writing)
  | [] => []
  | parts :: alternatives => writings parts :: writingsOfAlternatives alternatives

end

/-- The expression that a pattern stands for, anchored at both ends. -/
def translate? (pattern : String) : Except PatternError (List Char) :=
  (ofPattern? pattern).map fun parts =>
    ['^'] ++ (sequence .other (writings parts)).whole ++ ['$']

end AccessPolicy.Glob
