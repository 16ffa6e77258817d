import AccessPolicy.Pattern.Cache
import AccessPolicy.Proofs.Collection.Answers

/-!
# Answers that do not depend on the cache

A cache holds compiled patterns only, and a compiled pattern is determined by
its text. So cached work gives the same answer whatever the cache holds when it
begins (`Cached.Transparent`), and what it answers is told by `Cached.fresh`.
Composed work asks its parts one after the other (`Cached.fresh_bind`), as if
there were no cache at all.
-/

namespace AccessPolicy

namespace Cached

variable {α β : Type} {work : Cached α} {next : α → Cached β}

theorem run_bind (work : Cached α) (next : α → Cached β) (cache : Cache) :
    (work >>= next).run cache =
      match work.run cache with
      | (.ok a, later) => (next a).run later
      | (.error e, later) => (.error e, later) := by
  show (ExceptT.bindCont next (work.run cache).1).run (work.run cache).2 = _
  rcases work.run cache with ⟨e | a, later⟩ <;> rfl

/-- The answer does not depend on what the cache holds. -/
def Transparent (work : Cached α) : Prop := ∀ cache, (work.run cache).1 = work.fresh

theorem transparent_pure (a : α) : Transparent (pure a : Cached α) := fun _ => rfl

@[simp] theorem fresh_pure (a : α) : (pure a : Cached α).fresh = .ok a := rfl

theorem answer_bind (hnext : ∀ a, (next a).Transparent) (cache : Cache) :
    ((work >>= next).run cache).1 = (work.run cache).1.bind fun a => (next a).fresh := by
  rw [run_bind]
  rcases work.run cache with ⟨e | a, later⟩
  · rfl
  · exact hnext a later

/-- Work in sequence answers what its parts answer one after the other. -/
theorem fresh_bind (hnext : ∀ a, (next a).Transparent) :
    (work >>= next).fresh = work.fresh.bind fun a => (next a).fresh :=
  answer_bind hnext _

theorem transparent_bind (hwork : work.Transparent) (hnext : ∀ a, (next a).Transparent) :
    (work >>= next).Transparent := by
  intro cache
  rw [answer_bind hnext, fresh_bind hnext, hwork cache]

/-- Work whose answer is only dressed up. -/
theorem fresh_map {f : α → β} : (work >>= fun a => (pure (f a) : Cached β)).fresh =
    work.fresh.map f := by
  rw [fresh_bind fun _ => transparent_pure _]
  cases work.fresh <;> rfl

end Cached

namespace Pattern

/-- The text of a pattern compiles. -/
def Compiles (source : String) : Prop := ∃ p, compile? source = .ok p

instance (source : String) : Decidable (Compiles source) :=
  decidable_of_iff ((compile? source).isOk = true) <| by
    unfold Compiles
    cases compile? source <;> simp [Except.isOk, Except.toBool]

/-- A name matches one of several patterns, which all or some of compile. -/
def AnyMatches (sources : List String) (name : String) : Prop :=
  ∃ source ∈ sources, ∃ p, compile? source = .ok p ∧ p.isMatch name = true

end Pattern

namespace Cache

open Cached

variable {source name : String} {sources : List String}

theorem source_of_find? {cache : Cache} {p : Pattern} (h : cache.find? source = some p) :
    p.source = source := by
  unfold find? at h
  have same := List.find?_some h
  exact eq_of_beq same

theorem answer_compile (source : String) (cache : Cache) :
    ((compile source).run cache).1 = Pattern.compile? source := by
  show (compile source cache).1 = _
  unfold compile
  -- what is found under a text was compiled from that text
  cases h : cache.find? source with
  | some p => rw [← source_of_find? h, Pattern.compile?_source]
  | none => cases Pattern.compile? source <;> rfl

/-- Compiling through a cache answers what compiling answers. -/
@[simp] theorem fresh_compile (source : String) :
    (compile source).fresh = Pattern.compile? source :=
  answer_compile source _

theorem transparent_compile (source : String) : (compile source).Transparent := by
  intro cache
  rw [answer_compile, fresh_compile]

theorem transparent_isMatch (source name : String) : (isMatch source name).Transparent :=
  transparent_bind (transparent_compile source) fun _ => transparent_pure _

theorem fresh_isMatch (source name : String) :
    (isMatch source name).fresh = (Pattern.compile? source).map fun p => p.isMatch name := by
  unfold isMatch
  rw [fresh_bind fun _ => transparent_pure _, fresh_compile]
  cases Pattern.compile? source <;> rfl

theorem matchesAny_cons (source : String) (sources : List String) (name : String) :
    matchesAny (source :: sources) name = isMatch source name >>= fun found =>
      if found then pure true else matchesAny sources name := by
  unfold matchesAny
  rw [List.anyM]
  congr
  funext found
  cases found <;> rfl

theorem transparent_matchesAny (sources : List String) (name : String) :
    (matchesAny sources name).Transparent := by
  induction sources with
  | nil => exact transparent_pure false
  | cons source sources ih =>
    rw [matchesAny_cons]
    apply transparent_bind (transparent_isMatch source name)
    intro found
    cases found
    · exact ih
    · exact transparent_pure true

theorem fresh_matchesAny_nil (name : String) : (matchesAny [] name).fresh = .ok false := rfl

theorem fresh_matchesAny_cons (source : String) (sources : List String) (name : String) :
    (matchesAny (source :: sources) name).fresh =
      (Pattern.compile? source).bind fun p =>
        if p.isMatch name then .ok true else (matchesAny sources name).fresh := by
  have rest : ∀ found : Bool,
      (if found then pure true else matchesAny sources name : Cached Bool).Transparent := by
    intro found
    cases found
    · exact transparent_matchesAny sources name
    · exact transparent_pure true
  rw [matchesAny_cons, fresh_bind rest, fresh_isMatch]
  cases Pattern.compile? source with
  | error e => rfl
  | ok p =>
    show (if p.isMatch name then pure true else matchesAny sources name : Cached Bool).fresh =
      if p.isMatch name then .ok true else (matchesAny sources name).fresh
    by_cases hm : p.isMatch name = true
    · rw [if_pos hm, if_pos hm, fresh_pure]
    · rw [if_neg hm, if_neg hm]

theorem anyMatches_cons {p : Pattern} (hp : Pattern.compile? source = .ok p) :
    Pattern.AnyMatches (source :: sources) name ↔
      p.isMatch name = true ∨ Pattern.AnyMatches sources name := by
  refine ⟨fun h => ?_, fun h => ?_⟩
  · obtain ⟨found, hfound, q, hq, hm⟩ := h
    rcases List.mem_cons.1 hfound with rfl | hfound
    · rw [hp] at hq
      injection hq with hq
      exact .inl (hq ▸ hm)
    · exact .inr ⟨found, hfound, q, hq, hm⟩
  · rcases h with hm | ⟨found, hfound, hq⟩
    · exact ⟨source, List.mem_cons_self, p, hp, hm⟩
    · exact ⟨found, List.mem_cons_of_mem _ hfound, hq⟩

/-- An answer tells whether one of the patterns matches. -/
theorem matchesAny_spec {found : Bool} (h : (matchesAny sources name).fresh = .ok found) :
    found = true ↔ Pattern.AnyMatches sources name := by
  induction sources with
  | nil =>
    rw [fresh_matchesAny_nil] at h
    injection h with h
    simp [← h, Pattern.AnyMatches]
  | cons source sources ih =>
    rw [fresh_matchesAny_cons] at h
    cases hp : Pattern.compile? source with
    | error e =>
      rw [hp] at h
      nomatch h
    | ok p =>
      rw [hp] at h
      rw [anyMatches_cons hp]
      by_cases hm : p.isMatch name = true
      · have hfound : found = true := by simpa [Except.bind, hm] using h.symm
        simp [hfound, hm]
      · have hrest : (matchesAny sources name).fresh = .ok found := by
          simpa [Except.bind, hm] using h
        simp [hm, ih hrest]

/-- Where all patterns compile there is an answer. -/
theorem matchesAny_answers (h : ∀ source ∈ sources, Pattern.Compiles source) (name : String) :
    ∃ found, (matchesAny sources name).fresh = .ok found := by
  induction sources with
  | nil => exact ⟨false, rfl⟩
  | cons source sources ih =>
    obtain ⟨p, hp⟩ := h source List.mem_cons_self
    obtain ⟨found, hfound⟩ := ih fun s hs => h s (List.mem_cons_of_mem _ hs)
    refine ⟨if p.isMatch name then true else found, ?_⟩
    rw [fresh_matchesAny_cons, hp, hfound]
    cases hm : p.isMatch name <;> simp [Except.bind, hm]

end Cache

end AccessPolicy
