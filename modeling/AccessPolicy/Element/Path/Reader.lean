import AccessPolicy.Element.Path.Basic
import AccessPolicy.Text.Blank

/-!
# Reading paths

A path is written as steps with slashes between them; two slashes go to all
nodes below. A step is a tag, `*` or `.`, followed by predicates in brackets:
`[@key]`, `[@key='value']` or `[tag]`. Slashes and brackets between quotes
belong to the value that is quoted.
-/

namespace AccessPolicy

namespace Path

open AccessPolicy.Text

/-- What is wrong with a path. -/
inductive Fault where
  | emptyPath
  | absolutePath
  | unterminatedPredicate
  | danglingSeparator
  | parentStep
  | missingTest (segment : String)
  | malformedPredicate (segment : String)
  | emptyAttribute
  | unquotedValue (value : String)
  | unsupportedPredicate (body : String)
deriving DecidableEq, Repr

/-- A fault in words. -/
def Fault.message : Fault → String
  | emptyPath => "empty path"
  | absolutePath => "absolute paths are not supported"
  | unterminatedPredicate => "unterminated predicate"
  | danglingSeparator => "dangling separator"
  | parentStep => "parent steps are not supported"
  | missingTest segment => s!"missing node test in '{segment}'"
  | malformedPredicate segment => s!"malformed predicate in '{segment}'"
  | emptyAttribute => "empty attribute name"
  | unquotedValue value => s!"attribute value must be quoted: {value}"
  | unsupportedPredicate body => s!"unsupported predicate '[{body}]'"

/-- Whether a character opens a quotation. -/
def isQuote (c : Char) : Bool := c == '\'' || c == '"'

/-- Puts a character in front of the first segment. -/
def pushFront (c : Char) : List (List Char) → List (List Char)
  | [] => [[c]]
  | segment :: segments => (c :: segment) :: segments

/-- The parts between the slashes that stand outside brackets, given the number
of open brackets and the quote that is open. Brackets and quotes must close. -/
def splitSegments (depth : Nat) (quote : Option Char) :
    List Char → Option (List (List Char))
  | [] => if depth = 0 ∧ quote = none then some [[]] else none
  | c :: cs =>
    match quote with
    | some q => (splitSegments depth (if c = q then none else some q) cs).map (pushFront c)
    | none =>
      if isQuote c && 0 < depth then (splitSegments depth (some c) cs).map (pushFront c)
      else if c = '[' then (splitSegments (depth + 1) none cs).map (pushFront c)
      else if c = ']' then
        if depth = 0 then none else (splitSegments (depth - 1) none cs).map (pushFront c)
      else if c = '/' ∧ depth = 0 then (splitSegments depth none cs).map ([] :: ·)
      else (splitSegments depth none cs).map (pushFront c)

/-- The body of a predicate up to the first closing bracket that is not quoted,
and what follows it. -/
def cutBody (quote : Option Char) : List Char → Option (List Char × List Char)
  | [] => none
  | c :: cs =>
    match quote with
    | some q =>
      (cutBody (if c = q then none else some q) cs).map fun (body, rest) => (c :: body, rest)
    | none =>
      if c = ']' then some ([], cs)
      else
        (cutBody (if isQuote c then some c else none) cs).map fun (body, rest) =>
          (c :: body, rest)

theorem cutBody_length {quote : Option Char} {cs body rest : List Char}
    (h : cutBody quote cs = some (body, rest)) : rest.length < cs.length := by
  induction cs generalizing quote body with
  | nil => simp [cutBody] at h
  | cons c cs ih =>
    simp only [cutBody] at h
    split at h
    · simp only [Option.map_eq_some_iff, Prod.mk.injEq, Prod.exists] at h
      obtain ⟨inner, tail, hcut, rfl, rfl⟩ := h
      exact Nat.lt_succ_of_lt (ih hcut)
    · split at h
      · simp at h
        simp [h.2]
      · simp only [Option.map_eq_some_iff, Prod.mk.injEq, Prod.exists] at h
        obtain ⟨inner, tail, hcut, rfl, rfl⟩ := h
        exact Nat.lt_succ_of_lt (ih hcut)

/-- What stands between a quote and the same quote at the end. -/
def unquote? (value : List Char) : Option (List Char) :=
  match value with
  | [] => none
  | q :: rest => if isQuote q ∧ rest.getLast? = some q then some rest.dropLast else none

/-- The condition on an attribute, written behind an `@`. -/
def readAttributePredicate (body : List Char) : Except Fault Predicate :=
  match body.dropWhile (· ≠ '=') with
  | [] =>
    if body.isEmpty then .error .emptyAttribute
    else .ok (.hasAttribute (String.ofList body))
  | _ :: value =>
    match unquote? (trimChars value) with
    | none => .error (.unquotedValue (String.ofList value))
    | some content =>
      .ok (.attributeEquals (String.ofList (trimChars (body.takeWhile (· ≠ '='))))
        (String.ofList content))

/-- The condition that the body of a predicate writes. -/
def readPredicate (body : List Char) : Except Fault Predicate :=
  match trimChars body with
  | '@' :: condition => readAttributePredicate condition
  | body =>
    if body.isEmpty || body.any (fun c => c == '=' || isQuote c) then
      .error (.unsupportedPredicate (String.ofList body))
    else .ok (.hasChild (String.ofList body))

/-- The conditions behind the test of a segment. -/
def readPredicates (segment : List Char) (cs : List Char) : Except Fault (List Predicate) :=
  match cs with
  | [] => .ok []
  | '[' :: cs =>
    match _h : cutBody none cs with
    | none => .error (.malformedPredicate (String.ofList segment))
    | some (body, rest) => do
      let first ← readPredicate body
      let others ← readPredicates segment rest
      return first :: others
  | _ :: _ => .error (.malformedPredicate (String.ofList segment))
termination_by cs.length
decreasing_by exact Nat.lt_succ_of_lt (cutBody_length _h)

/-- The test at the front of a segment. -/
def readTest (segment : List Char) : Except Fault NodeTest :=
  match segment.takeWhile (· ≠ '[') with
  | ['.'] => .ok .current
  | ['*'] => .ok .any
  | ['.', '.'] => .error .parentStep
  | [] => .error (.missingTest (String.ofList segment))
  | tag => .ok (.tag (String.ofList tag))

/-- The step that a segment writes. -/
def readStep (axis : Axis) (segment : List Char) : Except Fault Step := do
  let test ← readTest segment
  let predicates ← readPredicates segment (segment.dropWhile (· ≠ '['))
  return ⟨axis, test, predicates⟩

/-- The steps that segments write. An empty segment stands for two slashes in a
row and must have a step behind it. -/
def readSteps (axis : Axis) : List (List Char) → Except Fault (List Step)
  | [] => .ok []
  | segment :: segments =>
    if segment.isEmpty then
      if segments.isEmpty || axis == .descendant then .error .danglingSeparator
      else readSteps .descendant segments
    else do
      let step ← readStep axis segment
      let steps ← readSteps .child segments
      return step :: steps

/-- The path that a text writes. Blanks around it are dropped. -/
def read? (text : String) : Except Fault Path :=
  match trimChars text.toList with
  | [] => .error .emptyPath
  | '/' :: _ => .error .absolutePath
  | cs =>
    match splitSegments 0 none cs with
    | none => .error .unterminatedPredicate
    | some segments => (readSteps .child segments).map (⟨·⟩)

end Path

/-- A path that could not be read, as it was given. -/
structure QueryError where
  path : String
  fault : Path.Fault
deriving DecidableEq, Repr

/-- What went wrong, in words. -/
def QueryError.message (e : QueryError) : String :=
  let path := e.path
  let reason := e.fault.message
  s!"Invalid query '{path}': {reason}"

namespace Element

/-- All elements that the written path selects. -/
def findAll (e : Element) (path : String) : Except QueryError (List Element) :=
  match Path.read? path with
  | .ok p => .ok (p.select e)
  | .error fault => .error ⟨path, fault⟩

/-- The first element that the written path selects. -/
def find? (e : Element) (path : String) : Except QueryError (Option Element) :=
  (e.findAll path).map List.head?

/-- The text of the first element that the written path selects. -/
def findText? (e : Element) (path : String) : Except QueryError (Option String) :=
  (e.find? path).map fun found => found.bind (·.text)

/-- The elements that the written path selects, as the children of a new
element. -/
def query (e : Element) (path : String) : Except QueryError Element :=
  (e.findAll path).map fun found => (ofTag Path.resultsTag).withChildren found

end Element

end AccessPolicy
