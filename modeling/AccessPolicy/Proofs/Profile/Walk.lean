import AccessPolicy.Proofs.Profile.Governs

/-!
# What stands in a profile

A profile is reached from another by going from profiles to profiles that they
hold themselves (`Profile.Contains`). A walk comes by all profiles that are reached
and by no others (`Profile.mem_walk_iff_contains`), and what holds of a profile
whenever it holds of those that it holds itself is true of every profile
(`Profile.inductionOn`).
-/

namespace AccessPolicy

namespace Profile

/-! ## Induction -/

mutual

/-- What passes from the profiles inside to the one around them holds of all. -/
theorem inductionOn {motive : Profile → Prop}
    (step : ∀ p, (∀ q, .profile q ∈ p.items → motive q) → motive p) : ∀ p, motive p
  | ⟨name, attachments, modifier, items⟩ =>
    step ⟨name, attachments, modifier, items⟩ (inductionOnItems step items)

theorem inductionOnItems {motive : Profile → Prop}
    (step : ∀ p, (∀ q, .profile q ∈ p.items → motive q) → motive p) :
    ∀ (items : List (Item Profile)) (q : Profile), .profile q ∈ items → motive q
  | [], _, hq => absurd hq List.not_mem_nil
  | .rule _ :: items, q, hq => by
    rcases List.mem_cons.1 hq with hq | hq
    · exact nomatch hq
    · exact inductionOnItems step items q hq
  | .profile p :: items, q, hq => by
    rcases List.mem_cons.1 hq with hq | hq
    · injection hq with hq
      rw [hq]
      exact inductionOn step p
    · exact inductionOnItems step items q hq

end

/-! ## Rules and profiles inside -/

theorem mem_rules {p : Profile} {r : Rule} : r ∈ p.rules ↔ .rule r ∈ p.items := by
  unfold rules
  rw [List.mem_filterMap]
  refine ⟨fun ⟨item, hitem, hr⟩ => ?_, fun hr => ⟨.rule r, hr, rfl⟩⟩
  cases item with
  | rule s =>
    injection hr with hr
    exact hr ▸ hitem
  | profile q => nomatch hr

theorem mem_walkItems {q : Profile} {items : List (Item Profile)} :
    q ∈ walkItems items ↔ ∃ c, .profile c ∈ items ∧ q ∈ c.walk := by
  induction items with
  | nil => simp [walkItems]
  | cons item items ih =>
    cases item with
    | rule r => simp [walkItems, ih]
    | profile p => simp [walkItems, ih, or_and_right, exists_or]

/-- A walk comes by the profile and by those that it comes by in its items. -/
theorem mem_walk {p q : Profile} :
    q ∈ p.walk ↔ q = p ∨ ∃ c, .profile c ∈ p.items ∧ q ∈ c.walk := by
  cases p
  rw [walk, List.mem_cons, mem_walkItems]

/-- The second profile is the first one or stands in it, at any depth. -/
inductive Contains : Profile → Profile → Prop
  | self {p : Profile} : Contains p p
  | inside {p q c : Profile} : .profile c ∈ p.items → Contains c q → Contains p q

/-- A walk comes by the profiles that a profile contains. -/
theorem mem_walk_iff_contains {p q : Profile} : q ∈ p.walk ↔ p.Contains q := by
  induction p using inductionOn with
  | step p ih =>
    rw [mem_walk]
    refine ⟨fun h => ?_, fun h => ?_⟩
    · rcases h with rfl | ⟨c, hc, hq⟩
      · exact .self
      · exact .inside hc ((ih c hc).1 hq)
    · cases h with
      | self => exact .inl rfl
      | inside hc hq => exact .inr ⟨_, hc, (ih _ hc).2 hq⟩

/-- What holds of all profiles of a walk holds of the profile and of all profiles of
the walks in it. -/
theorem forall_mem_walk {P : Profile → Prop} {p : Profile} : (∀ c ∈ p.walk, P c) ↔
    P p ∧ ∀ c, .profile c ∈ p.items → ∀ d ∈ c.walk, P d := by
  simp only [mem_walk (p := p)]
  refine ⟨fun h => ?_, fun ⟨h, h'⟩ c hc => ?_⟩
  · exact ⟨h p (.inl rfl), fun c hc d hd => h d (.inr ⟨c, hc, hd⟩)⟩
  · rcases hc with rfl | ⟨d, hd, hc⟩
    · exact h
    · exact h' d hd c hc

/-- A rule that governs a subject stands in a profile that the walk comes by. -/
theorem Governs.exists_walk {subject : String} {p : Profile} {r : Rule}
    (h : p.Governs subject r) : ∃ q ∈ p.walk, r ∈ q.rules := by
  induction h with
  | own _ hr => exact ⟨_, mem_walk.2 (.inl rfl), mem_rules.2 hr⟩
  | within _ hq _ ih =>
    obtain ⟨c, hc, hr⟩ := ih
    exact ⟨c, mem_walk.2 (.inr ⟨_, hq, hc⟩), hr⟩

end Profile

end AccessPolicy
