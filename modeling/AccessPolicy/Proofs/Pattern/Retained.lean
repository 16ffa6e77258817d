import AccessPolicy.Proofs.Pattern.History
import Mathlib.Data.List.DropRight
import Mathlib.Data.List.Nodup

/-!
# What a cache keeps and counts

What a cache keeps is told by the history behind it: the patterns that a call has compiled
since the cache was last made to drop what it kept, which it is by a clear and by a new pattern
that finds no room (`Cache.Retained`). A call finds its pattern exactly when it is one of
those; it counts as one or the other, and the counts begin again with a clear
(`Cache.counts_behind_history`).

One call has four outcomes (`Cache.Asked`), and what it keeps is the same in terms of the cache
and in terms of the history, so both agree behind every history (`Cache.keeps_behind`).
-/

namespace AccessPolicy

open Pattern (Compiles)

namespace Cache

/-- The pattern that a call asks for. -/
def Call.source? : Call → Option String
  | compile source => some source
  | isMatch source _ => some source
  | clear => none

/-- The calls of a history behind its last clear. -/
def sinceClear (history : List Call) : List Call :=
  history.rtakeWhile fun c => c.source?.isSome

/-- The cache behind a history that began with nothing kept. -/
def behind (capacity : Nat) (history : List Call) : Cache :=
  ((empty capacity).run history).2

/-- A pattern with this text is kept. -/
def Keeps (cache : Cache) (source : String) : Prop :=
  source ∈ cache.stored.map (·.source)

/-- The call asks for a pattern that compiles and is not kept, and there is no room for it. -/
def Overflows (cache : Cache) (c : Call) : Prop :=
  ∃ source, c.source? = some source ∧ Compiles source ∧ ¬ cache.Keeps source ∧
    cache.capacity ≤ cache.size

/-- The call makes the cache drop what it keeps. -/
def Drops (cache : Cache) (c : Call) : Prop := c = .clear ∨ cache.Overflows c

/-- A call of the history has compiled the pattern, and none behind it has made the cache drop
what it kept. -/
def Retained (capacity : Nat) (history : List Call) (source : String) : Prop :=
  ∃ earlier c rest, history = earlier ++ c :: rest ∧ c.source? = some source ∧ Compiles source ∧
    ∀ front d back, rest = front ++ d :: back →
      ¬ (behind capacity (earlier ++ c :: front)).Drops d

variable {cache later : Cache} {c : Call} {source : String} {capacity : Nat} {history : List Call}

/-! ## One call -/

theorem keeps_iff_find? : cache.Keeps source ↔ (cache.find? source).isSome = true := by
  unfold Keeps find?
  rw [List.find?_isSome, List.mem_map]
  simp only [beq_iff_eq]

/-- What is kept under a text was compiled from it. -/
theorem compiles_of_keeps (h : cache.Keeps source) : Compiles source := by
  obtain ⟨p, _, rfl⟩ := List.mem_map.1 h
  exact ⟨p, p.compile?_source⟩

/-- The second cache is the first one behind a call that asks for the pattern. It was kept, or it
does not compile, or it is kept from then on, with or without what was kept before. -/
inductive Asked (cache : Cache) (source : String) : Cache → Prop where
  | found : cache.Keeps source → Asked cache source { cache with hits := cache.hits + 1 }
  | failed : ¬ Compiles source → Asked cache source { cache with misses := cache.misses + 1 }
  | added (p : Pattern) : ¬ cache.Keeps source → p.source = source →
      cache.size < cache.capacity →
      Asked cache source { cache with stored := p :: cache.stored, misses := cache.misses + 1 }
  | alone (p : Pattern) : ¬ cache.Keeps source → p.source = source →
      cache.capacity ≤ cache.size →
      Asked cache source { cache with stored := [p], misses := cache.misses + 1 }

theorem asked_compile (cache : Cache) (source : String) :
    cache.Asked source ((compile source).run cache).2 := by
  show cache.Asked source (compile source cache).2
  unfold compile
  cases hfind : cache.find? source with
  | some p => exact .found (keeps_iff_find?.2 (by rw [hfind]; rfl))
  | none =>
    have absent : ¬ cache.Keeps source := by simp [keeps_iff_find?, hfind]
    cases hp : Pattern.compile? source with
    | error e =>
      refine .failed fun ⟨p, hok⟩ => ?_
      rw [hp] at hok
      nomatch hok
    | ok p =>
      have same := Pattern.source_of_compile? hp
      show cache.Asked source (insert { cache with misses := cache.misses + 1 } p)
      unfold insert
      split
      · rename_i hfull
        exact .alone p absent same hfull
      · rename_i hroom
        exact .added p absent same (Nat.lt_of_not_le hroom)

/-- Matching a name does to the cache what compiling the pattern does. -/
theorem asked_call (h : c.source? = some source) (cache : Cache) :
    cache.Asked source (cache.call c).2 := by
  cases c with
  | clear => nomatch h
  | compile source' =>
    obtain rfl := Option.some.inj h
    exact cache.asked_compile source'
  | isMatch source' name =>
    obtain rfl := Option.some.inj h
    have same : ((isMatch source' name).run cache).2 = ((compile source').run cache).2 := by
      unfold isMatch
      rw [Cached.run_bind]
      rcases (compile source').run cache with ⟨e | p, later⟩ <;> rfl
    show cache.Asked source' ((isMatch source' name).run cache).2
    rw [same]
    exact cache.asked_compile source'

theorem Asked.total (h : cache.Asked source later) :
    later.hits + later.misses = cache.hits + cache.misses + 1 := by
  cases h with
  | found => exact Nat.add_right_comm _ 1 _
  | failed => rfl
  | added => rfl
  | alone => rfl

theorem Asked.hit_iff (h : cache.Asked source later) :
    later.hits = cache.hits + 1 ∧ later.misses = cache.misses ↔ cache.Keeps source := by
  cases h with
  | found hkept => exact iff_of_true ⟨rfl, rfl⟩ hkept
  | failed hfails => exact iff_of_false (by simp) fun hkept => hfails (compiles_of_keeps hkept)
  | added p habsent => exact iff_of_false (by simp) habsent
  | alone p habsent => exact iff_of_false (by simp) habsent

theorem Asked.miss_iff (h : cache.Asked source later) :
    later.hits = cache.hits ∧ later.misses = cache.misses + 1 ↔ ¬ cache.Keeps source := by
  cases h with
  | found hkept => exact iff_of_false (by simp) (not_not_intro hkept)
  | failed hfails =>
    exact iff_of_true ⟨rfl, rfl⟩ fun hkept => hfails (compiles_of_keeps hkept)
  | added p habsent => exact iff_of_true ⟨rfl, rfl⟩ habsent
  | alone p habsent => exact iff_of_true ⟨rfl, rfl⟩ habsent

theorem Asked.stored_of_fails (h : cache.Asked source later) (hfails : ¬ Compiles source) :
    later.stored = cache.stored := by
  cases h with
  | found => rfl
  | failed => rfl
  | added p _ hp => exact absurd ⟨p, hp ▸ p.compile?_source⟩ hfails
  | alone p _ hp => exact absurd ⟨p, hp ▸ p.compile?_source⟩ hfails

/-- A pattern that is asked for is kept from then on if it compiles, and the others as long as
there is room for it. -/
theorem Asked.keeps_iff (h : cache.Asked source later) (hc : c.source? = some source)
    (other : String) : later.Keeps other ↔
      other = source ∧ Compiles source ∨ cache.Keeps other ∧ ¬ cache.Overflows c := by
  have overflows : cache.Overflows c ↔
      Compiles source ∧ ¬ cache.Keeps source ∧ cache.capacity ≤ cache.size := by
    unfold Overflows
    rw [hc]
    simp
  rw [overflows]
  cases h with
  | found hkept =>
    show cache.Keeps other ↔ _
    constructor
    · exact fun hother => .inr ⟨hother, fun full => full.2.1 hkept⟩
    · rintro (⟨rfl, _⟩ | ⟨hother, _⟩)
      · exact hkept
      · exact hother
  | failed hfails =>
    show cache.Keeps other ↔ _
    simp [hfails]
  | added p habsent hp hroom =>
    have compiles : Compiles source := ⟨p, hp ▸ p.compile?_source⟩
    have room : ¬ cache.capacity ≤ cache.size := Nat.not_le_of_lt hroom
    simp [Keeps, hp, compiles, room]
  | alone p habsent hp hfull =>
    have compiles : Compiles source := ⟨p, hp ▸ p.compile?_source⟩
    have only : Keeps { cache with stored := [p], misses := cache.misses + 1 } other ↔
        other = source := by simp [Keeps, hp]
    rw [only]
    simp [compiles, habsent, hfull]

/-- What is kept behind a call: the pattern that it asks for, if that compiles, and what was kept
before, unless the call makes the cache drop it. -/
theorem keeps_call (cache : Cache) (c : Call) (other : String) :
    (cache.call c).2.Keeps other ↔
      c.source? = some other ∧ Compiles other ∨ cache.Keeps other ∧ ¬ cache.Drops c := by
  cases hc : c.source? with
  | none =>
    have hclear : c = .clear := by
      cases c with
      | clear => rfl
      | compile source => nomatch hc
      | isMatch source name => nomatch hc
    subst hclear
    simp [Drops, Keeps, call, clear, empty]
  | some source =>
    have hne : c ≠ .clear := by
      rintro rfl
      nomatch hc
    rw [(asked_call hc cache).keeps_iff hc other, Drops, Option.some.injEq, eq_comm (a := source)]
    simp only [hne, false_or]
    refine or_congr_left (and_congr_right ?_)
    rintro rfl
    rfl

/-- There is no more in the cache than there is room for, and nothing twice. -/
structure IsBounded (capacity : Nat) (cache : Cache) : Prop where
  capacity_eq : cache.capacity = capacity
  distinct : (cache.stored.map (·.source)).Nodup
  size_le : cache.size ≤ max capacity 1

theorem isBounded_empty (capacity : Nat) : IsBounded capacity (empty capacity) :=
  ⟨rfl, List.nodup_nil, Nat.zero_le _⟩

theorem IsBounded.asked (h : cache.IsBounded capacity) (hasked : cache.Asked source later) :
    later.IsBounded capacity := by
  cases hasked with
  | found => exact ⟨h.capacity_eq, h.distinct, h.size_le⟩
  | failed => exact ⟨h.capacity_eq, h.distinct, h.size_le⟩
  | added p habsent hp hroom =>
    subst hp
    rw [h.capacity_eq] at hroom
    refine ⟨h.capacity_eq, List.nodup_cons.2 ⟨habsent, h.distinct⟩, ?_⟩
    show cache.stored.length + 1 ≤ _
    exact Nat.le_trans hroom (Nat.le_max_left _ _)
  | alone p _ _ _ =>
    exact ⟨h.capacity_eq, List.nodup_singleton _, Nat.le_max_right _ _⟩

theorem IsBounded.call (h : cache.IsBounded capacity) (c : Call) :
    (cache.call c).2.IsBounded capacity := by
  cases hc : c.source? with
  | some source => exact h.asked (asked_call hc cache)
  | none =>
    cases c with
    | clear =>
      have cleared := isBounded_empty capacity
      rwa [← h.capacity_eq] at cleared ⊢
    | compile source => nomatch hc
    | isMatch source name => nomatch hc

/-! ## Histories -/

theorem run_append (cache : Cache) (calls rest : List Call) :
    (cache.run (calls ++ rest)).2 = ((cache.run calls).2.run rest).2 := by
  induction calls generalizing cache with
  | nil => rfl
  | cons c calls ih => exact ih (cache.call c).2

/-- The last call of a history is made to the cache behind the others. -/
theorem behind_concat (capacity : Nat) (history : List Call) (c : Call) :
    behind capacity (history ++ [c]) = ((behind capacity history).call c).2 :=
  run_append _ history [c]

theorem isBounded_behind (capacity : Nat) (history : List Call) :
    (behind capacity history).IsBounded capacity := by
  induction history using List.reverseRecOn with
  | nil => exact isBounded_empty capacity
  | append_singleton history c ih =>
    rw [behind_concat]
    exact ih.call c

theorem not_retained_nil : ¬ Retained capacity [] source := by
  rintro ⟨earlier, c, rest, heq, _⟩
  exact absurd heq.symm (by simp)

/-- What is retained behind a call, told as what is kept behind it. -/
theorem retained_concat : Retained capacity (history ++ [c]) source ↔
    c.source? = some source ∧ Compiles source ∨
      Retained capacity history source ∧ ¬ (behind capacity history).Drops c := by
  constructor
  · rintro ⟨earlier, d, rest, heq, hsource, hcompiles, hrest⟩
    rcases List.eq_nil_or_concat rest with rfl | ⟨rest, e, rfl⟩
    · obtain ⟨_, rfl⟩ := List.append_singleton_inj.1 heq
      exact .inl ⟨hsource, hcompiles⟩
    · rw [List.concat_eq_append] at heq hrest
      rw [← List.cons_append, ← List.append_assoc] at heq
      obtain ⟨rfl, rfl⟩ := List.append_singleton_inj.1 heq
      refine .inr ⟨⟨earlier, d, rest, rfl, hsource, hcompiles, ?_⟩, hrest rest c [] rfl⟩
      intro front e back hsplit
      apply hrest front e (back ++ [c])
      rw [hsplit, List.append_assoc, List.cons_append]
  · rintro (⟨hsource, hcompiles⟩ | ⟨⟨earlier, d, rest, rfl, hsource, hcompiles, hrest⟩, hkeeps⟩)
    · exact ⟨history, c, [], rfl, hsource, hcompiles, fun front e back h => by simp at h⟩
    · refine ⟨earlier, d, rest ++ [c], by simp, hsource, hcompiles, ?_⟩
      intro front e back hsplit
      rcases List.eq_nil_or_concat back with rfl | ⟨back, e', rfl⟩
      · obtain ⟨rfl, rfl⟩ := List.append_singleton_inj.1 hsplit
        exact hkeeps
      · rw [List.concat_eq_append, ← List.cons_append, ← List.append_assoc] at hsplit
        exact hrest front e back (List.append_singleton_inj.1 hsplit).1

/-- A cache keeps what its history has retained. -/
theorem keeps_behind (capacity : Nat) (history : List Call) (source : String) :
    (behind capacity history).Keeps source ↔ Retained capacity history source := by
  induction history using List.reverseRecOn with
  | nil => exact iff_of_false List.not_mem_nil not_retained_nil
  | append_singleton history c ih => rw [behind_concat, keeps_call, retained_concat, ih]

theorem sinceClear_concat (history : List Call) (c : Call) : sinceClear (history ++ [c]) =
    if c.source?.isSome then sinceClear history ++ [c] else [] :=
  List.rtakeWhile_concat ..

/-- Every call since the last clear is counted. -/
theorem counted_behind (capacity : Nat) (history : List Call) :
    (behind capacity history).hits + (behind capacity history).misses =
      (sinceClear history).length := by
  induction history using List.reverseRecOn with
  | nil => rfl
  | append_singleton history c ih =>
    rw [behind_concat, sinceClear_concat]
    cases hc : c.source? with
    | some source =>
      rw [(asked_call hc _).total, ih]
      simp
    | none =>
      cases c with
      | clear => rfl
      | compile source => nomatch hc
      | isMatch source name => nomatch hc

/-- What the next call behind a history does when it asks for a pattern. It counts as a hit if the
history has retained the pattern and as a miss if not, a pattern that does not compile changes
nothing else, and one that does is kept, alone if the cache was full. -/
structure CountsNext (capacity : Nat) (history : List Call) (c : Call) (source : String)
    (cache later : Cache) : Prop where
  hit_iff : later.hits = cache.hits + 1 ∧ later.misses = cache.misses ↔
    Retained capacity history source
  miss_iff : later.hits = cache.hits ∧ later.misses = cache.misses + 1 ↔
    ¬ Retained capacity history source
  failing : ¬ Compiles source → ¬ Retained capacity history source ∧ ¬ cache.Overflows c ∧
    later.stored = cache.stored
  keeps_iff : ∀ other, later.Keeps other ↔
    other = source ∧ Compiles source ∨ cache.Keeps other ∧ ¬ cache.Overflows c

theorem countsNext_behind (hc : c.source? = some source) : CountsNext capacity history c source
    (behind capacity history) (behind capacity (history ++ [c])) := by
  have asked := asked_call hc (behind capacity history)
  have kept := keeps_behind capacity history source
  rw [← behind_concat] at asked
  refine ⟨asked.hit_iff.trans kept, asked.miss_iff.trans (not_congr kept), fun hfails => ?_,
    asked.keeps_iff hc⟩
  refine ⟨fun retained => hfails (compiles_of_keeps (kept.2 retained)), ?_,
    asked.stored_of_fails hfails⟩
  rintro ⟨source', hsource', hcompiles, _⟩
  rw [hc, Option.some.injEq] at hsource'
  exact hfails (hsource' ▸ hcompiles)

/-- Behind any history, a cache of any capacity has counted the calls since the last clear, keeps
the patterns that the history has retained, nothing twice and no more than there is room for, and
the next call counts as a hit exactly when it asks for one of these. -/
theorem counts_behind_history (capacity : Nat) (history : List Call) :
    let cache := behind capacity history
    cache.hits + cache.misses = (sinceClear history).length ∧
    cache.IsBounded capacity ∧
    (∀ source, cache.Keeps source ↔ Retained capacity history source) ∧
    ∀ c source, c.source? = some source →
      CountsNext capacity history c source cache (behind capacity (history ++ [c])) :=
  ⟨counted_behind capacity history, isBounded_behind capacity history,
    keeps_behind capacity history, fun _ _ hc => countsNext_behind hc⟩

/-- A cache for one pattern: a pattern that does not compile leaves what is kept, the next pattern
pushes it out, and the first one is then asked for in vain. -/
theorem counts_behind_history_full :
    let history : List Call := [.clear, .compile "/a", .isMatch "/a" "/b", .compile "\x7b",
      .isMatch "/b" "/b"]
    let cache := behind 1 history
    let next : Call := .compile "/a"
    cache.hits = 1 ∧ cache.misses = 3 ∧ (sinceClear history).length = 4 ∧
      next.source? = some "/a" ∧ ¬ Retained 1 history "/a" ∧
      CountsNext 1 history next "/a" cache (behind 1 (history ++ [next])) := by
  intro history cache next
  have counts : cache.hits = 1 ∧ cache.misses = 3 ∧ ¬ cache.Keeps "/a" := by
    unfold Keeps
    decide +kernel
  obtain ⟨total, _, kept, follows⟩ := counts_behind_history 1 history
  refine ⟨counts.1, counts.2.1, ?_, rfl, ?_, follows next "/a" rfl⟩
  · rw [← total]
    exact congrArg₂ _ counts.1 counts.2.1
  · rw [← kept]
    exact counts.2.2

end Cache

end AccessPolicy
