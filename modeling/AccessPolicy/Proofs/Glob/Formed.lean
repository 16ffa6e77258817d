import AccessPolicy.Glob.Basic

/-!
# What reading a glob can give

Reading a glob does not give every list of parts: a character part is never an
operator of globs, a piece that is passed on begins with a bracket, a backslash
or an operator that stands alone, and a group has at least one alternative.
Parts like these are called formed, and `ofPattern?_formed` says that a pattern
has only formed parts. What is proved about the expression of a glob rests on
this and not on how a pattern is read.
-/

namespace AccessPolicy.Glob

/-- The text begins, and not with a quantifier. -/
def beginsAnew : List Char → Bool
  | [] => false
  | c :: _ => c != '*' && c != '+' && c != '?'

/-- The character is no operator of globs, and an expression takes it for
itself, if with a backslash. -/
def isLiteral (c : Char) : Bool :=
  c != '\\' && c != '[' && c != '(' && c != ')' && c != '|' && c != '*' && c != '?' &&
    c != '\x7b' && c != '^'

/-! ## Tokens -/

/-- Whether a token can come from a scan. -/
def Token.isFormed : Token → Bool
  | .char c => c == '^' || isLiteral c
  | .verbatim text => beginsAnew text
  | .set text => beginsAnew text
  | _ => true

/-- The characters taken for a set begin with its bracket. -/
def OpenBracket.IsFormed (b : OpenBracket) : Prop :=
  ∃ inside, b.taken = inside ++ ['[']

theorem OpenBracket.IsFormed.take {b : OpenBracket} (h : b.IsFormed) (depth : Nat) (c : Char) :
    OpenBracket.IsFormed ⟨depth, c :: b.taken⟩ := by
  obtain ⟨inside, hb⟩ := h
  exact ⟨c :: inside, by rw [hb, List.cons_append]⟩

theorem OpenBracket.IsFormed.beginsAnew {b : OpenBracket} (h : b.IsFormed) :
    Glob.beginsAnew b.taken.reverse = true := by
  obtain ⟨inside, hb⟩ := h
  rw [hb, List.reverse_append]
  rfl

theorem scan_formed (b : Option OpenBracket) (offset : Nat) (cs : List Char)
    (hb : ∀ o, b = some o → o.IsFormed) : ∀ t ∈ scan b offset cs, t.isFormed = true := by
  have opened : ∀ {o : OpenBracket}, o.IsFormed → ∀ p, some o = some p → p.IsFormed := by
    intro o h p hp
    exact Option.some.inj hp ▸ h
  fun_induction scan b offset cs
  case case1 => simp
  case case2 b _ => simpa [Token.isFormed] using (hb b rfl).beginsAnew
  -- a character taken into an open set
  case case3 b _ c cs ih =>
    exact ih (opened (((hb b rfl).take b.depth '\\').take b.depth c))
  case case4 b _ cs ih => exact ih (opened ((hb b rfl).take _ _))
  case case6 b _ cs _ ih => exact ih (opened ((hb b rfl).take _ _))
  case case7 b _ c cs _ _ _ ih => exact ih (opened ((hb b rfl).take _ _))
  -- a set that closes
  case case5 b _ cs _ ih =>
    exact List.forall_mem_cons.2 ⟨((hb b rfl).take b.depth ']').beginsAnew, ih nofun⟩
  -- a set that opens
  case case8 ih => exact ih (opened ⟨[']', '^'], rfl⟩)
  case case9 ih => exact ih (opened ⟨['^'], rfl⟩)
  case case10 ih => exact ih (opened ⟨[']'], rfl⟩)
  case case11 ih => exact ih (opened ⟨[], rfl⟩)
  -- a character behind all the operators
  case case23 offset c cs _ _ _ hset _ _ _ hstar hsingle hopen hclose hparen hend hcomma hbar ih =>
    refine List.forall_mem_cons.2 ⟨?_, ih nofun⟩
    by_cases hc : c = '^'
    · simp [Token.isFormed, hc]
    · by_cases hback : c = '\\'
      · cases cs <;> grind
      · have literal : isLiteral c = true := by
          simp [isLiteral, hc, hback, show c ≠ '[' from hset, show c ≠ '*' from hstar,
            show c ≠ '?' from hsingle, show c ≠ '\x7b' from hopen, show c ≠ '(' from hparen,
            show c ≠ ')' from hend, show c ≠ '|' from hbar]
        simp [Token.isFormed, literal]
  all_goals
    rename_i ih
    exact List.forall_mem_cons.2 ⟨rfl, ih nofun⟩

/-! ## Parts -/

mutual

/-- Whether a part can come from reading a pattern. -/
def Part.isFormed : Part → Bool
  | .char c => isLiteral c
  | .verbatim text => beginsAnew text
  | .set text => beginsAnew text
  | .assertion text => beginsAnew text
  | .group alternatives => !alternatives.isEmpty && alternativesFormed alternatives
  | _ => true

/-- Whether all parts of a sequence are formed. -/
def partsFormed : List Part → Bool
  | [] => true
  | part :: parts => part.isFormed && partsFormed parts

/-- Whether all parts of several sequences are formed. -/
def alternativesFormed : List (List Part) → Bool
  | [] => true
  | parts :: alternatives => partsFormed parts && alternativesFormed alternatives

end

theorem partsFormed_iff {parts : List Part} :
    partsFormed parts = true ↔ ∀ part ∈ parts, part.isFormed = true := by
  induction parts with
  | nil => simp [partsFormed]
  | cons part parts ih => simp [partsFormed, ih]

theorem alternativesFormed_iff {alternatives : List (List Part)} :
    alternativesFormed alternatives = true ↔ ∀ parts ∈ alternatives, partsFormed parts = true := by
  induction alternatives with
  | nil => simp [alternativesFormed]
  | cons parts alternatives ih => simp [alternativesFormed, ih]

theorem partOfEscape_formed (c : Char) : (partOfEscape c).isFormed = true := by
  unfold partOfEscape
  split
  · rfl
  · split <;> rfl

theorem partOfChar_formed {c : Char} (h : (Token.char c).isFormed = true) :
    (partOfChar c).isFormed = true := by
  unfold partOfChar
  split
  · rfl
  · rename_i hc
    simpa [Token.isFormed, Part.isFormed, hc] using h

/-! ## Reading -/

/-- Everything read of a group is formed. -/
def OpenGroup.IsFormed (g : OpenGroup) : Prop :=
  partsFormed g.parts = true ∧ alternativesFormed g.done = true

theorem OpenGroup.isFormed_start (scope : Scope) : (OpenGroup.start scope).IsFormed :=
  ⟨rfl, rfl⟩

theorem OpenGroup.IsFormed.push {g : OpenGroup} (h : g.IsFormed) {part : Part}
    (hp : part.isFormed = true) : (g.push part).IsFormed :=
  ⟨by simp [OpenGroup.push, partsFormed, hp, h.1], h.2⟩

theorem partsFormed_of_append {front back : List Part} (h : partsFormed (front ++ back) = true) :
    partsFormed front = true :=
  partsFormed_iff.2 fun part hpart => partsFormed_iff.1 h part (List.mem_append_left back hpart)

theorem partsFormed_reverse {parts : List Part} (h : partsFormed parts = true) :
    partsFormed parts.reverse = true := by
  rw [partsFormed_iff] at h ⊢
  intro part hpart
  exact h part (List.mem_reverse.1 hpart)

theorem OpenGroup.IsFormed.next {g : OpenGroup} (h : g.IsFormed) : g.next.IsFormed :=
  ⟨rfl, by simp [OpenGroup.next, alternativesFormed, partsFormed_reverse h.1, h.2]⟩

theorem OpenGroup.IsFormed.toPart {g : OpenGroup} (h : g.IsFormed) :
    g.toPart.isFormed = true := by
  have done := alternativesFormed_iff.1 h.next.2
  have all : alternativesFormed g.next.done.reverse = true := by
    rw [alternativesFormed_iff]
    intro parts hparts
    exact done parts (List.mem_reverse.1 hparts)
  simp only [OpenGroup.toPart, Part.isFormed, all]
  simp [OpenGroup.next]

/-- Everything read is formed. -/
structure Reader.IsFormed (r : Reader) : Prop where
  current : r.current.IsFormed
  enclosing : ∀ g ∈ r.enclosing, g.IsFormed

theorem Reader.isFormed_start : Reader.start.IsFormed :=
  ⟨OpenGroup.isFormed_start .top, by simp [Reader.start]⟩

theorem Reader.IsFormed.push {r : Reader} (h : r.IsFormed) {part : Part}
    (hp : part.isFormed = true) : (r.push part).IsFormed :=
  ⟨h.current.push hp, h.enclosing⟩

theorem Reader.IsFormed.openGroup {r : Reader} (h : r.IsFormed) (scope : Scope) :
    (r.openGroup scope).IsFormed :=
  ⟨OpenGroup.isFormed_start scope, List.forall_mem_cons.2 ⟨h.current, h.enclosing⟩⟩

theorem Reader.IsFormed.closeGroup {r : Reader} (h : r.IsFormed) : r.closeGroup.IsFormed := by
  unfold Reader.closeGroup
  split
  · exact h
  · rename_i outer enclosing hr
    have around := h.enclosing
    rw [hr, List.forall_mem_cons] at around
    exact ⟨around.1.push h.current.toPart, around.2⟩

theorem Reader.IsFormed.next {r : Reader} (h : r.IsFormed) : r.next.IsFormed :=
  ⟨h.current.next, h.enclosing⟩

theorem Reader.IsFormed.step {r s : Reader} (h : r.IsFormed) {t : Token}
    (ht : t.isFormed = true) (hs : r.step t = .ok s) : s.IsFormed := by
  unfold Reader.step at hs
  split at hs <;> cases hs
  case h_1 => exact h.push (partOfChar_formed ht)
  case h_2 => exact h.push (partOfEscape_formed _)
  case h_3 => exact h.push ht
  case h_4 => exact h.push ht
  case h_8 => exact h.openGroup _
  case h_9 => exact h.closeGroup
  case h_11 => exact h.openGroup _
  case h_12 => exact h.closeGroup
  case h_14 => exact h.next
  case h_17 => exact h.next
  all_goals exact h.push rfl

theorem Reader.IsFormed.run {r s : Reader} (h : r.IsFormed) {ts : List Token}
    (hts : ∀ t ∈ ts, t.isFormed = true) (hs : r.run ts = .ok s) : s.IsFormed := by
  induction ts generalizing r with
  | nil =>
    cases hs
    exact h
  | cons t ts ih =>
    rw [List.forall_mem_cons] at hts
    rw [Reader.run] at hs
    cases hr : r.step t with
    | error offset => simp [hr, Except.bind] at hs
    | ok next =>
      rw [hr] at hs
      exact ih (h.step hts.1 hr) hts.2 hs

/-- All parts of a pattern are formed. -/
theorem ofPattern?_formed {pattern : String} {parts : List Part}
    (h : ofPattern? pattern = .ok parts) : partsFormed parts = true := by
  unfold ofPattern? at h
  simp only at h
  split at h
  · cases h
  · unfold ofTokens? at h
    split at h
    · cases h
    · rename_i r hr
      have tokens_formed : ∀ offset glob, ∀ t ∈ tokens offset glob, t.isFormed = true := by
        intro offset glob
        unfold tokens
        split <;> exact scan_formed none _ _ nofun
      have formed := Reader.isFormed_start.run (tokens_formed _ _) hr
      split at h <;> cases h
      exact partsFormed_reverse formed.current.1

end AccessPolicy.Glob
