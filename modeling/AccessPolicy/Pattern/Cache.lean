import AccessPolicy.Decimal.Fixed
import AccessPolicy.Pattern.Basic

/-!
# A cache of compiled patterns

The cache keeps compiled patterns up to a capacity and counts how often a
pattern was found in it. A pattern that does not compile counts as a miss and
is not kept. When a new pattern finds the cache full, everything kept is
dropped first.

Work that compiles patterns runs in `Cached`: it may fail with a
`PatternError`, and the cache keeps its changes also when it does.
-/

namespace AccessPolicy

/-- Compiled patterns, the latest first, with the counts of calls that found
their pattern and of calls that did not. -/
structure Cache where
  capacity : Nat
  stored : List Pattern
  hits : Nat
  misses : Nat

/-- Work that compiles patterns through a cache. -/
abbrev Cached := ExceptT PatternError (StateM Cache)

namespace Cache

/-- The capacity that is taken when none is given. -/
def defaultCapacity : Nat := 4096

/-- A cache that keeps nothing yet. -/
def empty (capacity : Nat) : Cache := ⟨capacity, [], 0, 0⟩

/-- The number of patterns kept. -/
def size (cache : Cache) : Nat := cache.stored.length

/-- The compiled form of a pattern, if it is kept. -/
def find? (cache : Cache) (source : String) : Option Pattern :=
  cache.stored.find? fun p => p.source == source

/-- Keeps a compiled pattern, after dropping all others when the cache is
full. -/
def insert (cache : Cache) (p : Pattern) : Cache :=
  if cache.capacity ≤ cache.size then { cache with stored := [p] }
  else { cache with stored := p :: cache.stored }

/-- Drops all patterns and counts from zero again. -/
def clear (cache : Cache) : Cache := empty cache.capacity

/-- The share of calls that found their pattern, with six decimal places. -/
def hitRate (cache : Cache) : String :=
  Decimal.ratioText cache.hits (cache.hits + cache.misses)

/-- Compiles a pattern, or takes its compiled form from the cache. -/
def compile (source : String) : Cached Pattern := fun cache =>
  match cache.find? source with
  | some p => (.ok p, { cache with hits := cache.hits + 1 })
  | none =>
    let missed := { cache with misses := cache.misses + 1 }
    match Pattern.compile? source with
    | .error e => (.error e, missed)
    | .ok p => (.ok p, missed.insert p)

/-- Whether a name matches a pattern. -/
def isMatch (source name : String) : Cached Bool := do
  let p ← compile source
  return p.isMatch name

/-- Whether a name matches one of several patterns. Patterns behind the first
match are not compiled. -/
def matchesAny (sources : List String) (name : String) : Cached Bool :=
  sources.anyM fun source => isMatch source name

end Cache

/-- The answer of cached work that begins with an empty cache. -/
def Cached.fresh {α : Type} (work : Cached α) : Except PatternError α :=
  (work.run (Cache.empty Cache.defaultCapacity)).1

end AccessPolicy
