import AccessPolicy.Proofs.Regex.Escapes

/-!
# Braces that pair up

A backslash escapes the character behind it, and the braces that are not escaped either
pair up (`Balanced`) or one of them is at fault (`AtFault`): the first closing brace
that has no partner ahead of it, and where there is none, the last opening brace that
has none behind it. The offset of a brace is the length in bytes of what stands ahead
of it.

What pairs up has as many braces of either kind, and nowhere in it do closing braces get
ahead of opening ones (`Covered`). So of braces that pair up none is at fault
(`not_atFault`), and of others only one is (`AtFault.unique`).

Read from the left, a text leaves some braces open (`Leaves`). An opening brace adds one
to them, a closing brace takes away the one that was opened last.
-/

namespace AccessPolicy.Glob

open AccessPolicy.Text
open AccessPolicy.Regex (waits escapesNext escapesNext_append)

/-! ## The braces of a text -/

/-- A brace. -/
inductive Brace where
  | opening
  | closing
deriving DecidableEq, Repr

/-- The brace that a character is. -/
def Brace.ofChar? (c : Char) : Option Brace :=
  if c = '\x7b' then some .opening else if c = '\x7d' then some .closing else none

/-- The braces of a text that are not escaped, given whether the first character is. -/
def bracesBehind : Bool → List Char → List Brace
  | _, [] => []
  | true, _ :: cs => bracesBehind false cs
  | false, c :: cs => (Brace.ofChar? c).toList ++ bracesBehind (c == '\\') cs

/-- The braces of a text that are not escaped. -/
def braces (text : List Char) : List Brace := bracesBehind false text

theorem bracesBehind_append (waiting : Bool) (v w : List Char) :
    bracesBehind waiting (v ++ w) =
      bracesBehind waiting v ++ bracesBehind (waits waiting v) w := by
  induction v generalizing waiting with
  | nil => rfl
  | cons c cs ih =>
    cases waiting with
    | true => exact ih false
    | false =>
      rw [List.cons_append, bracesBehind, ih, bracesBehind, List.append_assoc]
      rfl

theorem braces_append (v w : List Char) :
    braces (v ++ w) = braces v ++ bracesBehind (escapesNext v) w :=
  bracesBehind_append false v w

section

variable {c : Char} {b : Brace} (hc : Brace.ofChar? c = some b) {front : List Char}
  (hfront : escapesNext front = false) (back : List Char)

include hc

theorem Brace.beq_backslash_of_ofChar? : (c == '\\') = false := by
  rw [beq_eq_false_iff_ne]
  rintro rfl
  exact Option.some_ne_none b hc.symm

include hfront

/-- The braces of a text are those ahead of one of them, this one and those behind it. -/
theorem braces_split : braces (front ++ c :: back) = braces front ++ b :: braces back := by
  rw [braces_append, hfront, bracesBehind, hc, Brace.beq_backslash_of_ofChar? hc]
  rfl

theorem escapesNext_split : escapesNext (front ++ c :: back) = escapesNext back := by
  rw [escapesNext_append hfront]
  show waits (c == '\\') back = waits false back
  rw [Brace.beq_backslash_of_ofChar? hc]

end

/-! ## Balance -/

/-- Every brace has its partner. -/
inductive Balanced : List Brace → Prop
  | nil : Balanced []
  | group {inner rest : List Brace} : Balanced inner → Balanced rest →
      Balanced (.opening :: (inner ++ .closing :: rest))

theorem Balanced.append {xs ys : List Brace} (hx : Balanced xs) (hy : Balanced ys) :
    Balanced (xs ++ ys) := by
  induction hx with
  | nil => exact hy
  | group hinner _ _ ih =>
    rw [List.cons_append, List.append_assoc, List.cons_append]
    exact .group hinner ih

theorem Balanced.count_eq {bs : List Brace} (h : Balanced bs) :
    bs.count .closing = bs.count .opening := by
  induction h with
  | nil => rfl
  | group _ _ hinner hrest =>
    simp only [List.count_cons, List.count_append]
    simp
    omega

/-- Nowhere do closing braces get ahead of opening ones. -/
def Covered (bs : List Brace) : Prop :=
  ∀ front back, bs = front ++ back → front.count .closing ≤ front.count .opening

theorem Covered.append {xs ys : List Brace} (hx : Covered xs) (hy : Covered ys) :
    Covered (xs ++ ys) := by
  intro front back h
  rcases List.append_eq_append_iff.1 h with ⟨mid, rfl, hys⟩ | ⟨mid, rfl, _⟩
  · have first := hx xs [] (List.append_nil xs).symm
    have second := hy mid back hys
    rw [List.count_append, List.count_append]
    omega
  · exact hx front mid rfl

theorem Covered.opening {bs : List Brace} (h : Covered bs) : Covered (.opening :: bs) := by
  intro front back hbs
  cases front with
  | nil => exact Nat.le_refl 0
  | cons b front =>
    rw [List.cons_append, List.cons.injEq] at hbs
    obtain ⟨rfl, hbs⟩ := hbs
    have rest := h front back hbs
    simp
    omega

theorem Balanced.covered {bs : List Brace} (h : Balanced bs) : Covered bs := by
  induction h with
  | nil =>
    intro front back h
    rw [(List.append_eq_nil_iff.1 h.symm).1]
    exact Nat.le_refl 0
  | group hinner _ inner_covered rest_covered =>
    intro front back h
    have equal := hinner.count_eq
    cases front with
    | nil => exact Nat.le_refl 0
    | cons b front =>
      rw [List.cons_append, List.cons.injEq] at h
      obtain ⟨rfl, h⟩ := h
      -- the part ends within the group, or behind the brace that closes it
      rcases List.append_eq_append_iff.1 h with ⟨mid, rfl, hmid⟩ | ⟨mid, rfl, _⟩
      · cases mid with
        | nil => simp [equal]
        | cons d mid =>
          rw [List.cons_append, List.cons.injEq] at hmid
          obtain ⟨rfl, hmid⟩ := hmid
          have rest := rest_covered mid back hmid
          simp [List.count_append]
          omega
      · have within := inner_covered front mid rfl
        simp
        omega

/-- A closing brace behind a balanced part uncovers the whole. -/
theorem not_covered_closing {xs : List Brace} (hx : Balanced xs) (ys : List Brace) :
    ¬ Covered (xs ++ .closing :: ys) := by
  intro h
  have front := h (xs ++ [.closing]) ys (by simp)
  have equal := hx.count_eq
  simp [List.count_append] at front
  omega

/-- What is balanced up to its end is not balanced with an opening brace ahead. -/
theorem not_balanced_opening (xs : List Brace) {ys : List Brace} (hy : Balanced ys) :
    ¬ Balanced (xs ++ .opening :: ys) := by
  intro h
  have front := h.covered xs (.opening :: ys) rfl
  have whole := h.count_eq
  have equal := hy.count_eq
  simp [List.count_append] at whole
  omega

/-! ## The brace at fault -/

/-- The braces ahead of a closing one pair up, and so it has no partner. -/
def IsUnopened (text : List Char) (offset : Nat) : Prop :=
  ∃ front back, text = front ++ '\x7d' :: back ∧ escapesNext front = false ∧
    Balanced (braces front) ∧ byteLength front = offset

/-- The braces behind an opening one pair up, and so it has no partner. -/
def IsUnclosed (text : List Char) (offset : Nat) : Prop :=
  ∃ front back, text = front ++ '\x7b' :: back ∧ escapesNext front = false ∧
    Balanced (braces back) ∧ byteLength front = offset

/-- The first closing brace without a partner, or if each has one, the last opening
brace without a partner. -/
def AtFault (text : List Char) (offset : Nat) : Prop :=
  IsUnopened text offset ∨ (∀ o, ¬ IsUnopened text o) ∧ IsUnclosed text offset

theorem not_isUnopened {text : List Char} (h : Covered (braces text)) (offset : Nat) :
    ¬ IsUnopened text offset := by
  rintro ⟨front, back, rfl, hfront, balanced, _⟩
  rw [braces_split rfl hfront] at h
  exact not_covered_closing balanced _ h

theorem not_isUnclosed {text : List Char} (h : Balanced (braces text)) (offset : Nat) :
    ¬ IsUnclosed text offset := by
  rintro ⟨front, back, rfl, hfront, balanced, _⟩
  rw [braces_split rfl hfront] at h
  exact not_balanced_opening _ balanced h

theorem not_atFault {text : List Char} (h : Balanced (braces text)) (offset : Nat) :
    ¬ AtFault text offset := by
  rintro (unopened | ⟨_, unclosed⟩)
  · exact not_isUnopened h.covered offset unopened
  · exact not_isUnclosed h offset unclosed

/-- Of two places at which a text is split at a character, one is the first. -/
theorem split_trichotomy {c : Char} {front back front' back' : List Char}
    (h : front ++ c :: back = front' ++ c :: back') : front = front' ∨
      (∃ mid, front' = front ++ c :: mid ∧ back = mid ++ c :: back') ∨
        ∃ mid, front = front' ++ c :: mid ∧ back' = mid ++ c :: back := by
  rcases List.append_eq_append_iff.1 h with ⟨mid, hfront, hback⟩ | ⟨mid, hfront, hback⟩
  · cases mid with
    | nil => exact .inl (by rw [hfront, List.append_nil])
    | cons d mid =>
      rw [List.cons_append, List.cons.injEq] at hback
      exact .inr (.inl ⟨mid, by rw [hfront, hback.1], hback.2⟩)
  · cases mid with
    | nil => exact .inl (by rw [hfront, List.append_nil])
    | cons d mid =>
      rw [List.cons_append, List.cons.injEq] at hback
      exact .inr (.inr ⟨mid, by rw [hfront, hback.1], hback.2⟩)

/-- Ahead of a closing brace without a partner there is no other. -/
theorem IsUnopened.unique {text : List Char} {o p : Nat} (ho : IsUnopened text o)
    (hp : IsUnopened text p) : o = p := by
  obtain ⟨front, back, rfl, hfront, balanced, rfl⟩ := ho
  obtain ⟨front', back', hsplit, hfront', balanced', rfl⟩ := hp
  rcases split_trichotomy hsplit with rfl | ⟨mid, rfl, _⟩ | ⟨mid, rfl, _⟩
  · rfl
  · exact absurd ⟨front, mid, rfl, hfront, balanced, rfl⟩ (not_isUnopened balanced'.covered _)
  · exact absurd ⟨front', mid, rfl, hfront', balanced', rfl⟩ (not_isUnopened balanced.covered _)

/-- Behind the last opening brace without a partner there is no other. -/
theorem IsUnclosed.unique {text : List Char} {o p : Nat} (ho : IsUnclosed text o)
    (hp : IsUnclosed text p) : o = p := by
  obtain ⟨front, back, rfl, hfront, balanced, rfl⟩ := ho
  obtain ⟨front', back', hsplit, hfront', balanced', rfl⟩ := hp
  rcases split_trichotomy hsplit with rfl | ⟨mid, rfl, rfl⟩ | ⟨mid, rfl, rfl⟩
  · rfl
  · rw [escapesNext_split rfl hfront] at hfront'
    exact absurd ⟨mid, back', rfl, hfront', balanced', rfl⟩ (not_isUnclosed balanced _)
  · rw [escapesNext_split rfl hfront'] at hfront
    exact absurd ⟨mid, back, rfl, hfront, balanced, rfl⟩ (not_isUnclosed balanced' _)

theorem AtFault.unique {text : List Char} {o p : Nat} (ho : AtFault text o)
    (hp : AtFault text p) : o = p := by
  rcases ho with ho | ⟨none, ho⟩ <;> rcases hp with hp | ⟨none', hp⟩
  · exact ho.unique hp
  · exact absurd ho (none' o)
  · exact absurd hp (none p)
  · exact ho.unique hp

/-! ## Reading from the left -/

/-- The offsets of the braces that a text leaves open, the latest first. -/
inductive Leaves : List Char → List Nat → Prop
  | paired {text : List Char} : Balanced (braces text) → Leaves text []
  | opened {front back : List Char} {offsets : List Nat} : Leaves front offsets →
      escapesNext front = false → Balanced (braces back) →
      Leaves (front ++ '\x7b' :: back) (byteLength front :: offsets)

namespace Leaves

variable {text : List Char} {offsets : List Nat}

theorem covered (h : Leaves text offsets) : Covered (braces text) := by
  induction h with
  | paired balanced => exact balanced.covered
  | opened _ hfront balanced ih =>
    rw [braces_split rfl hfront]
    exact ih.append balanced.covered.opening

theorem balanced (h : Leaves text []) : Balanced (braces text) := by
  cases h with
  | paired balanced => exact balanced

/-- The last brace that is left open is at fault. -/
theorem atFault {offset : Nat} (h : Leaves text (offset :: offsets)) : AtFault text offset := by
  refine .inr ⟨not_isUnopened h.covered, ?_⟩
  cases h with
  | opened _ hfront balanced => exact ⟨_, _, rfl, hfront, balanced, rfl⟩

/-- A part whose braces pair up leaves open what was open ahead of it. -/
theorem append (h : Leaves text offsets) {part : List Char}
    (hpart : Balanced (bracesBehind (escapesNext text) part)) :
    Leaves (text ++ part) offsets := by
  cases h with
  | paired balanced =>
    refine .paired ?_
    rw [braces_append]
    exact balanced.append hpart
  | opened ahead hfront balanced =>
    rw [escapesNext_split rfl hfront] at hpart
    rw [List.append_assoc, List.cons_append]
    refine .opened ahead hfront ?_
    rw [braces_append]
    exact balanced.append hpart

theorem opening (h : Leaves text offsets) (htext : escapesNext text = false) :
    Leaves (text ++ ['\x7b']) (byteLength text :: offsets) :=
  .opened h htext .nil

theorem closing {offset : Nat} (h : Leaves text (offset :: offsets))
    (htext : escapesNext text = false) : Leaves (text ++ ['\x7d']) offsets := by
  cases h with
  | @opened front back _ ahead hfront balanced =>
    rw [escapesNext_split rfl hfront] at htext
    -- the two braces make a group of what is between them
    have group : braces ('\x7b' :: (back ++ ['\x7d'])) =
        .opening :: (braces back ++ [.closing]) := by
      have opened := @braces_split '\x7b' .opening rfl [] rfl (back ++ ['\x7d'])
      have closed := @braces_split '\x7d' .closing rfl back htext []
      rw [closed] at opened
      exact opened
    rw [List.append_assoc, List.cons_append]
    refine ahead.append ?_
    rw [hfront]
    show Balanced (braces _)
    rw [group]
    exact .group balanced .nil

end Leaves

end AccessPolicy.Glob
