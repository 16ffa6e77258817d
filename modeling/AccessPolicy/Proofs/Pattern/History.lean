import AccessPolicy.Proofs.Pattern.Cached

/-!
# Histories of a cache

A history is any sequence of calls to a cache: patterns are compiled, names are
matched, and what is kept is dropped. A call is answered as if there were no cache
(`Cache.call_answer`), and so is every call of a history, whatever was found,
refused, pushed out or dropped before it (`Cache.run_answers`).
-/

namespace AccessPolicy

namespace Cache

/-- A call to a cache. -/
inductive Call where
  | compile (source : String)
  | isMatch (source name : String)
  | clear
deriving DecidableEq, Repr

/-- What a call answers. -/
inductive Answer where
  | compiled (answer : Except PatternError Pattern)
  | matched (answer : Except PatternError Bool)
  | cleared

/-- What a call answers where nothing is kept. -/
def Call.answer : Call → Answer
  | compile source => .compiled (Pattern.compile? source)
  | isMatch source name => .matched ((Pattern.compile? source).map fun p => p.isMatch name)
  | clear => .cleared

/-- The answer to a call, and the cache behind it. -/
def call (cache : Cache) : Call → Answer × Cache
  | .compile source =>
    let (answer, later) := (compile source).run cache
    (.compiled answer, later)
  | .isMatch source name =>
    let (answer, later) := (isMatch source name).run cache
    (.matched answer, later)
  | .clear => (.cleared, cache.clear)

/-- The answers to the calls of a history, and the cache behind them. -/
def run (cache : Cache) : List Call → List Answer × Cache
  | [] => ([], cache)
  | c :: calls =>
    let (first, later) := cache.call c
    let (others, last) := later.run calls
    (first :: others, last)

theorem answer_isMatch (source name : String) (cache : Cache) :
    ((isMatch source name).run cache).1 =
      (Pattern.compile? source).map fun p => p.isMatch name := by
  rw [transparent_isMatch, fresh_isMatch]

/-- What the cache holds has no influence on what a call answers. -/
theorem call_answer (cache : Cache) (c : Call) : (cache.call c).1 = c.answer := by
  cases c with
  | compile source => exact congrArg Answer.compiled (answer_compile source cache)
  | isMatch source name => exact congrArg Answer.matched (answer_isMatch source name cache)
  | clear => rfl

/-- Nor has it on what the calls of a history answer, one after the other. -/
theorem run_answers (cache : Cache) (calls : List Call) :
    (cache.run calls).1 = calls.map Call.answer := by
  induction calls generalizing cache with
  | nil => rfl
  | cons c calls ih =>
    have first := cache.call_answer c
    have others := ih (cache.call c).2
    show (cache.call c).1 :: ((cache.call c).2.run calls).1 = c.answer :: calls.map Call.answer
    rw [first, others]

end Cache

end AccessPolicy
