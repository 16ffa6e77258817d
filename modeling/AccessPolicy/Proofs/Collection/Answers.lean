import Mathlib.Data.List.Forall2

/-!
# Answers in sequence

Work that may fail is put together from parts that are asked one after the other. It
has an answer when each part that is asked has one, and a list is answered member by
member (`exists_mapM_ok`, `mem_of_mapM_ok`).
-/

namespace AccessPolicy

section Parts

variable {ε α β : Type} {x : Except ε α}

theorem exists_ok_of_bind {f : α → Except ε β} {b : β}
    (h : x.bind f = .ok b) : ∃ a, x = .ok a ∧ f a = .ok b := by
  cases x with
  | error e => nomatch h
  | ok a => exact ⟨a, rfl, h⟩

theorem exists_ok_of_map {f : α → β} {b : β}
    (h : x.map f = .ok b) : ∃ a, x = .ok a ∧ f a = b := by
  cases x with
  | error e => nomatch h
  | ok a => exact ⟨a, rfl, by injection h⟩

theorem error_of_bind {f : α → Except ε β} {e : ε} (h : x.bind f = .error e) :
    x = .error e ∨ ∃ a, x = .ok a ∧ f a = .error e := by
  cases x with
  | error e' => exact .inl (by injection h with h; rw [h])
  | ok a => exact .inr ⟨a, rfl, h⟩

theorem error_of_map {f : α → β} {e : ε} (h : x.map f = .error e) : x = .error e := by
  cases x with
  | error e' => injection h with h; rw [h]
  | ok a => nomatch h

theorem ok_of_toOption {a : α} (h : x.toOption = some a) : x = .ok a := by
  cases x with
  | error e => nomatch h
  | ok b => exact congrArg Except.ok (Option.some.inj h)

/-- Where putting two answers together goes with changing each of them, the parts may as well be
changed first. -/
theorem bind_map_map {α' β' γ γ' : Type} {y : Except ε β} {f : α → α'} {g : β → β'}
    {join : α → β → γ} {join' : α' → β' → γ'} {k : γ → γ'}
    (h : ∀ a b, join' (f a) (g b) = k (join a b)) :
    ((x.map f).bind fun a => (y.map g).map (join' a)) =
      (x.bind fun a => y.map (join a)).map k := by
  cases x with
  | error e => rfl
  | ok a =>
    cases y with
    | error e => rfl
    | ok b => exact congrArg Except.ok (h a b)

end Parts

/-! ## Lists of answers -/

section Lists

variable {ε α β : Type} {f : α → Except ε β}

theorem mapM_cons_eq (f : α → Except ε β) (x : α) (xs : List α) :
    (x :: xs).mapM f = (f x).bind fun y => (xs.mapM f).map (y :: ·) := by
  rw [List.mapM_cons]
  cases f x with
  | error e => rfl
  | ok y => cases xs.mapM f <;> rfl

/-- A list is answered when each of its members is. -/
theorem exists_mapM_ok {xs : List α} :
    (∃ ys, xs.mapM f = .ok ys) ↔ ∀ x ∈ xs, ∃ y, f x = .ok y := by
  induction xs with
  | nil => exact ⟨fun _ x hx => absurd hx List.not_mem_nil, fun _ => ⟨[], rfl⟩⟩
  | cons x xs ih =>
    rw [mapM_cons_eq, List.forall_mem_cons, ← ih]
    constructor
    · rintro ⟨zs, h⟩
      obtain ⟨y, hy, h⟩ := exists_ok_of_bind h
      obtain ⟨ys, hys, _⟩ := exists_ok_of_map h
      exact ⟨⟨y, hy⟩, ys, hys⟩
    · rintro ⟨⟨y, hy⟩, ys, hys⟩
      exact ⟨y :: ys, by rw [hy, hys]; rfl⟩

/-- A list has no answer when one of its members has none. -/
theorem exists_error_of_mapM {xs : List α} {e : ε} (h : xs.mapM f = .error e) :
    ∃ x ∈ xs, f x = .error e := by
  induction xs with
  | nil => exact nomatch h
  | cons x xs ih =>
    rw [mapM_cons_eq] at h
    rcases error_of_bind h with hx | ⟨_, _, h⟩
    · exact ⟨x, List.mem_cons_self, hx⟩
    · obtain ⟨y, hy, hfails⟩ := ih (error_of_map h)
      exact ⟨y, List.mem_cons_of_mem x hy, hfails⟩

theorem mapM_of_forall₂ {xs : List α} {ys : List β}
    (h : List.Forall₂ (fun x y => f x = .ok y) xs ys) : xs.mapM f = .ok ys := by
  induction h with
  | nil => rfl
  | cons hx _ ih =>
    rw [mapM_cons_eq, hx, ih]
    rfl

/-- A list is answered with the answers of its members. -/
theorem mapM_eq_ok {g : α → β} {xs : List α} (h : ∀ x ∈ xs, f x = .ok (g x)) :
    xs.mapM f = .ok (xs.map g) :=
  mapM_of_forall₂ (List.forall₂_map_right_iff.2 (List.forall₂_same.2 h))

theorem mem_of_mapM_ok {xs : List α} {ys : List β} (h : xs.mapM f = .ok ys) (y : β) :
    y ∈ ys ↔ ∃ x ∈ xs, f x = .ok y := by
  induction xs generalizing ys with
  | nil =>
    cases h
    simp
  | cons x xs ih =>
    rw [mapM_cons_eq] at h
    obtain ⟨z, hz, h⟩ := exists_ok_of_bind h
    obtain ⟨zs, hzs, rfl⟩ := exists_ok_of_map h
    rw [List.mem_cons, ih hzs]
    simp [hz, eq_comm]

end Lists

end AccessPolicy
