import AccessPolicy.Glob.Fragment

/-!
# What a glob covers

The meaning of a glob without its expression: a part covers what lies between
two positions of a name, and a sequence covers what its parts cover one behind
the other. Positions are kept, and not the text between them, because a
wildcard asks what stands before it: right behind a separator it must take at
least one character.
-/

namespace AccessPolicy.Glob

/-- What the characters of a name before a position end with. -/
def endingAt (name : List Char) (i : Nat) : Ending :=
  match Regex.charBefore? name i with
  | some c => endingOf c
  | none => .other

/-- A character within a segment. -/
def isSegmentChar (c : Char) : Bool := c != '/' && c != '\x00'

/-- A character of a path. -/
def isPathChar (c : Char) : Bool := c != '\x00'

/-- All characters between two positions satisfy a condition. -/
def AllBetween (p : Char → Bool) (name : List Char) (i j : Nat) : Prop :=
  i ≤ j ∧ ∀ k, i ≤ k → k < j → ∃ c, name[k]? = some c ∧ p c = true

mutual

/-- The part covers what lies between two positions of the name. -/
inductive Part.Covers (name : List Char) : Part → Nat → Nat → Prop
  | char {c : Char} {i : Nat} : name[i]? = some c → Part.Covers name (.char c) i (i + 1)
  | escape {c : Char} {i : Nat} : name[i]? = some c → Part.Covers name (.escape c) i (i + 1)
  | single {c : Char} {i : Nat} : name[i]? = some c → isSegmentChar c = true →
      Part.Covers name .single i (i + 1)
  | star {i j : Nat} : AllBetween isSegmentChar name i j →
      (endingAt name i = .separator → i < j) → Part.Covers name .star i j
  | globstar {i j : Nat} : AllBetween isPathChar name i j →
      (endingAt name i = .separator → i < j) → Part.Covers name .globstar i j
  | group {alternatives : List (List Part)} {parts : List Part} {i j : Nat} :
      parts ∈ alternatives → CoversAll name parts i j → Part.Covers name (.group alternatives) i j

/-- The parts cover what lies between two positions, one behind the other. -/
inductive CoversAll (name : List Char) : List Part → Nat → Nat → Prop
  | nil {i : Nat} : CoversAll name [] i i
  | cons {part : Part} {parts : List Part} {i j k : Nat} : Part.Covers name part i k →
      CoversAll name parts k j → CoversAll name (part :: parts) i j

end

mutual

/-- Whether a part is made of characters, wildcards and groups only. An escaped
character is one that stands for itself behind a backslash. -/
def Part.isPlain : Part → Bool
  | .char _ | .single | .star | .globstar => true
  | .escape c => Regex.Token.isEscapable c
  | .verbatim _ | .set _ | .assertion _ => false
  | .group alternatives => alternativesPlain alternatives

/-- Whether all parts of a sequence are plain. -/
def partsPlain : List Part → Bool
  | [] => true
  | part :: parts => part.isPlain && partsPlain parts

/-- Whether all parts of several sequences are plain. -/
def alternativesPlain : List (List Part) → Bool
  | [] => true
  | parts :: alternatives => partsPlain parts && alternativesPlain alternatives

end

variable {name : List Char}

@[simp] theorem coversAll_nil {i j : Nat} : CoversAll name [] i j ↔ i = j := by
  refine ⟨?_, ?_⟩
  · intro h
    cases h
    rfl
  · intro h
    subst h
    exact .nil

theorem coversAll_cons {part : Part} {parts : List Part} {i j : Nat} :
    CoversAll name (part :: parts) i j ↔
      ∃ k, Part.Covers name part i k ∧ CoversAll name parts k j := by
  refine ⟨?_, ?_⟩
  · intro h
    cases h with
    | cons hpart hparts => exact ⟨_, hpart, hparts⟩
  · intro h
    obtain ⟨k, hpart, hparts⟩ := h
    exact .cons hpart hparts

theorem covers_group {alternatives : List (List Part)} {i j : Nat} :
    Part.Covers name (.group alternatives) i j ↔
      ∃ parts ∈ alternatives, CoversAll name parts i j := by
  refine ⟨?_, ?_⟩
  · intro h
    cases h with
    | group hmem hparts => exact ⟨_, hmem, hparts⟩
  · intro h
    obtain ⟨parts, hmem, hparts⟩ := h
    exact .group hmem hparts

theorem covers_star {i j : Nat} :
    Part.Covers name .star i j ↔
      AllBetween isSegmentChar name i j ∧ (endingAt name i = .separator → i < j) := by
  refine ⟨?_, ?_⟩
  · intro h
    cases h with
    | star hall hsome => exact ⟨hall, hsome⟩
  · intro h
    obtain ⟨hall, hsome⟩ := h
    exact .star hall hsome

theorem covers_globstar {i j : Nat} :
    Part.Covers name .globstar i j ↔
      AllBetween isPathChar name i j ∧ (endingAt name i = .separator → i < j) := by
  refine ⟨?_, ?_⟩
  · intro h
    cases h with
    | globstar hall hsome => exact ⟨hall, hsome⟩
  · intro h
    obtain ⟨hall, hsome⟩ := h
    exact .globstar hall hsome

/-! ## Endings -/

@[simp] theorem endingAt_zero : endingAt name 0 = .other := rfl

theorem endingAt_succ {i : Nat} {c : Char} (h : name[i]? = some c) :
    endingAt name (i + 1) = endingOf c := by
  simp [endingAt, Regex.charBefore?, h]

/-- An ending is one or the other. -/
theorem Ending.ne_separator {e : Ending} : e ≠ .separator ↔ e = .other := by
  cases e <;> simp

/-! ## Characters between positions -/

theorem AllBetween.refl (p : Char → Bool) (i : Nat) : AllBetween p name i i :=
  ⟨Nat.le_refl _, by omega⟩

/-- The first character of a stretch can be taken off. -/
theorem allBetween_head {p : Char → Bool} {i j : Nat} :
    AllBetween p name i j ↔
      i = j ∨ (∃ c, name[i]? = some c ∧ p c = true) ∧ AllBetween p name (i + 1) j := by
  refine ⟨?_, ?_⟩
  · intro h
    obtain ⟨hle, hall⟩ := h
    rcases Nat.eq_or_lt_of_le hle with heq | hlt
    · exact .inl heq
    · exact .inr ⟨hall i (Nat.le_refl _) hlt, hlt, fun k hk hkj => hall k (by omega) hkj⟩
  · intro h
    rcases h with rfl | ⟨hfirst, hle, hall⟩
    · exact .refl p i
    · refine ⟨by omega, fun k hk hkj => ?_⟩
      rcases Nat.eq_or_lt_of_le hk with rfl | hlt
      · exact hfirst
      · exact hall k hlt hkj

/-- The last character of a stretch can be taken off. -/
theorem allBetween_last {p : Char → Bool} {i j : Nat} (hlt : i < j) :
    AllBetween p name i j ↔
      ∃ k c, j = k + 1 ∧ AllBetween p name i k ∧ name[k]? = some c ∧ p c = true := by
  refine ⟨?_, ?_⟩
  · intro h
    obtain ⟨_, hall⟩ := h
    obtain ⟨k, rfl⟩ : ∃ k, j = k + 1 := ⟨j - 1, by omega⟩
    obtain ⟨c, hc, hp⟩ := hall k (by omega) (by omega)
    exact ⟨k, c, rfl, ⟨by omega, fun m hm hmk => hall m hm (by omega)⟩, hc, hp⟩
  · intro h
    obtain ⟨k, c, rfl, ⟨hle, hall⟩, hc, hp⟩ := h
    refine ⟨by omega, fun m hm hmk => ?_⟩
    rcases Nat.eq_or_lt_of_le (Nat.le_of_lt_succ hmk) with rfl | hmk
    · exact ⟨c, hc, hp⟩
    · exact hall m hm hmk

end AccessPolicy.Glob
