import AccessPolicy.Proofs.Regex.OpenSet

/-!
# Texts that are read on their own

A text that is read on its own as one set or one assertion is read so wherever it
stands outside brackets (`writes_of_read?`). What is read first begins that part, and
nothing behind it could be taken back: every further token leaves an open group, a
branch or another part (`Reader.Underway`). So the text is one token, or it is one
bracketed set whose bracket closes at its end (`alone_of_read?`).
-/

namespace AccessPolicy.Regex

/-- A set or an assertion. -/
def isSimple : Regex → Bool
  | set _ | assert _ => true
  | _ => false

theorem not_isSimple_apply (q : Quantifier) (part : Regex) : (q.apply part).isSimple = false := by
  cases q <;> rfl

/-- Whether a token is one of a bracketed set. -/
def Token.isOfSet : Token → Bool
  | .setOpen _ | .setMember _ | .setOp _ | .setClose => true
  | _ => false

/-! ## What is read is kept -/

namespace Reader

variable {r s : Reader}

/-- A group is open or something is read, and what stands before a quantifier is
repeated. -/
structure Underway (r : Reader) : Prop where
  read : r.enclosing ≠ [] ∨ r.current.done ≠ [] ∨ r.current.parts ≠ []
  repeated : r.afterQuantifier = true →
    ∃ q part parts, r.current.parts = Quantifier.apply q part :: parts

/-- Nothing but the part is read. -/
structure IsLone (r : Reader) (part : Regex) : Prop where
  enclosing : r.enclosing = []
  current : r.current = ⟨[], [part]⟩
  sets : r.sets = []

theorem underway_of_read (hread : r.enclosing ≠ [] ∨ r.current.done ≠ [] ∨ r.current.parts ≠ [])
    (hafter : r.afterQuantifier = false) : r.Underway :=
  ⟨hread, fun h => absurd (hafter.symm.trans h) Bool.false_ne_true⟩

theorem underway_push (r : Reader) (part : Regex) : (r.push part).Underway :=
  underway_of_read (.inr (.inr (List.cons_ne_nil _ _))) rfl

/-- A part that is appended stands alone only where nothing is read before it. -/
theorem Underway.not_isLone_push (h : r.Underway) (new part : Regex) :
    ¬ (r.push new).IsLone part := by
  intro hlone
  obtain ⟨hdone, hparts⟩ : r.current.done = [] ∧ new :: r.current.parts = [part] := by
    simpa [push, Branches.push] using hlone.current
  rcases h.read with hread | hread | hread
  · exact hread hlone.enclosing
  · exact hread hdone
  · exact hread (List.cons.inj hparts).2

/-- A quantifier repeats a part, and nothing takes the repetition back. -/
theorem Underway.quantifier (h : r.Underway) {q : Quantifier}
    (hs : r.step (.quantifier q) = some s) :
    s.Underway ∧ ∃ q part parts, s.current.parts = Quantifier.apply q part :: parts := by
  simp only [step] at hs
  split at hs
  · rename_i hlazy
    rw [Bool.and_eq_true] at hlazy
    cases hs
    exact ⟨underway_of_read h.read rfl, h.repeated hlazy.1⟩
  · unfold quantify at hs
    split at hs
    · cases hs
    · cases hs
      exact ⟨⟨.inr (.inr (List.cons_ne_nil _ _)), fun _ => ⟨_, _, _, rfl⟩⟩, _, _, _, rfl⟩

/-- Once something is read, no token takes it back, and none leaves a set or an
assertion alone. -/
theorem Underway.step (h : r.Underway) {t : Token} (hs : r.step t = some s) :
    s.Underway ∧ ∀ part : Regex, part.isSimple = true → ¬ s.IsLone part := by
  cases t with
  | atom new =>
    cases hs
    exact ⟨underway_push r new, fun part _ => h.not_isLone_push new part⟩
  | bar =>
    cases hs
    refine ⟨underway_of_read (.inr (.inl (List.cons_ne_nil _ _))) rfl, fun part _ hlone => ?_⟩
    exact absurd hlone.current (by simp [Branches.next])
  | groupOpen =>
    cases hs
    refine ⟨underway_of_read (.inl (List.cons_ne_nil _ _)) rfl, fun part _ hlone => ?_⟩
    exact absurd hlone.enclosing (List.cons_ne_nil _ _)
  | groupClose =>
    simp only [Reader.step, closeGroup] at hs
    split at hs
    · cases hs
    · cases hs
      refine ⟨underway_of_read (.inr (.inr (List.cons_ne_nil _ _))) rfl,
        fun part hpart hlone => ?_⟩
      have group := hlone.current
      simp only [Branches.push, Branches.mk.injEq, List.cons.injEq] at group
      rw [← group.2.1] at hpart
      exact Bool.false_ne_true hpart
  | quantifier q =>
    obtain ⟨under, q', body, parts, hparts⟩ := h.quantifier hs
    refine ⟨under, fun part hpart hlone => ?_⟩
    rw [hlone.current, List.cons.injEq] at hparts
    rw [hparts.1, not_isSimple_apply] at hpart
    exact Bool.false_ne_true hpart
  | setOpen negated =>
    cases hs
    exact ⟨⟨h.read, h.repeated⟩, fun part _ hlone => absurd hlone.sets (List.cons_ne_nil _ _)⟩
  | setMember member | setOp o =>
    simp only [Reader.step] at hs
    split at hs
    · cases hs
    · cases hs
      exact ⟨⟨h.read, h.repeated⟩, fun part _ hlone => absurd hlone.sets (List.cons_ne_nil _ _)⟩
  | setClose =>
    simp only [Reader.step, closeSet] at hs
    split at hs
    · cases hs
    · rename_i opened _
      cases hs
      have under : Underway { r with sets := [] } := ⟨h.read, h.repeated⟩
      exact ⟨underway_push _ _, fun part _ => under.not_isLone_push _ part⟩
    · cases hs
      exact ⟨⟨h.read, h.repeated⟩, fun part _ hlone => absurd hlone.sets (List.cons_ne_nil _ _)⟩

/-- Only no tokens at all leave a set or an assertion alone, once something is read. -/
theorem Underway.eq_nil_of_run (h : r.Underway) {ts : List Token} {part : Regex}
    (hpart : part.isSimple = true) (hs : r.run ts = some s) (hlone : s.IsLone part) :
    ts = [] := by
  induction ts generalizing r with
  | nil => rfl
  | cons t ts ih =>
    rw [run, Option.bind_eq_some_iff] at hs
    obtain ⟨mid, hstep, hrun⟩ := hs
    obtain ⟨under, hnot⟩ := h.step hstep
    obtain rfl := ih under hrun
    cases hrun
    exact absurd hlone (hnot part hpart)

/-- Any token but one of a set leaves something behind at the start of an expression. A
set or an assertion is left alone by its own token only. -/
theorem underway_start {t : Token} (ht : t.isOfSet = false) (hs : start.step t = some s) :
    s.Underway ∧ ∀ part : Regex, part.isSimple = true → s.IsLone part → t = .atom part := by
  cases t with
  | atom new =>
    cases hs
    refine ⟨underway_push _ _, fun part _ hlone => ?_⟩
    have parts := hlone.current
    simp only [push, start, Branches.empty, Branches.push, Branches.mk.injEq, List.cons.injEq]
      at parts
    rw [parts.2.1]
  | bar =>
    cases hs
    refine ⟨underway_of_read (.inr (.inl (List.cons_ne_nil _ _))) rfl, fun part _ hlone => ?_⟩
    exact absurd hlone.current (by simp [Branches.next])
  | groupOpen =>
    cases hs
    refine ⟨underway_of_read (.inl (List.cons_ne_nil _ _)) rfl, fun part _ hlone => ?_⟩
    exact absurd hlone.enclosing (List.cons_ne_nil _ _)
  | groupClose | quantifier q => cases hs
  | setOpen negated | setMember member | setOp o | setClose => cases ht

end Reader

/-! ## One token or one bracketed set -/

/-- Branches of which only a set or an assertion comes hold no other part. -/
theorem Branches.eq_of_toRegex {b : Branches} {part : Regex} (h : b.toRegex = part)
    (hpart : part.isSimple = true) : b = ⟨[], [part]⟩ := by
  obtain ⟨done, parts⟩ := b
  rw [toRegex, next, List.reverse_cons] at h
  cases hdone : done.reverse with
  | cons first others =>
    -- several branches are a choice
    rw [hdone] at h
    cases others <;> exact absurd hpart (by rw [← h]; exact Bool.false_ne_true)
  | nil =>
    rw [hdone] at h
    obtain rfl : done = [] := List.reverse_eq_nil_iff.1 hdone
    obtain hparts | ⟨only, hparts⟩ | ⟨first, second, others, hparts⟩ :
        parts.reverse = [] ∨ (∃ only, parts.reverse = [only]) ∨
          ∃ first second others, parts.reverse = first :: second :: others := by
      obtain _ | ⟨first, _ | ⟨second, others⟩⟩ := parts.reverse <;> simp
    · rw [hparts] at h
      exact absurd hpart (by rw [← h]; exact Bool.false_ne_true)
    · rw [hparts] at h
      obtain rfl : only = part := h
      rw [List.reverse_eq_iff.1 hparts]
      rfl
    · -- several parts are a sequence
      rw [hparts] at h
      exact absurd hpart (by rw [← h]; exact Bool.false_ne_true)

theorem Reader.isLone_of_finish {r : Reader} {part : Regex} (h : r.finish = some part)
    (hpart : part.isSimple = true) : r.IsLone part := by
  unfold finish at h
  split at h
  · rename_i closed
    rw [Bool.and_eq_true, List.isEmpty_iff, List.isEmpty_iff] at closed
    exact ⟨closed.1, Branches.eq_of_toRegex (Option.some.inj h) hpart, closed.2⟩
  · cases h

/-- Outside brackets an opening bracket is cut off with what it takes, and anything else as
one token. -/
theorem Token.readOutside_cases {c : Char} {cs rest : List Char} {ts : List Token} {next : Nat}
    (h : readOutside c cs = some (ts, next, rest)) :
    c = '[' ∧ ts = (readSetOpen cs).1 ∧ next = 1 ∧ rest = (readSetOpen cs).2 ∨
      next = 0 ∧ ∃ t, ts = [t] ∧ t.isOfSet = false := by
  unfold readOutside at h
  split at h
  · simp only [Option.map_eq_some_iff, Prod.exists, Prod.mk.injEq] at h
    obtain ⟨e, after, _, hts, hnext, _⟩ := h
    exact .inr ⟨hnext.symm, _, hts.symm, rfl⟩
  · simp only [Option.some.injEq, Prod.mk.injEq] at h
    exact .inl ⟨rfl, h.1.symm, h.2.1.symm, h.2.2.symm⟩
  · split at h <;> simp only [Option.some.injEq, Prod.mk.injEq, reduceCtorEq] at h
    · exact .inr ⟨h.2.1.symm, _, h.1.symm, rfl⟩
    · exact .inr ⟨h.2.1.symm, _, h.1.symm, rfl⟩
  case h_9 => cases h
  all_goals
    simp only [Option.some.injEq, Prod.mk.injEq] at h
    exact .inr ⟨h.2.1.symm, _, h.1.symm, rfl⟩

/-- A text without tokens outside brackets is empty. -/
theorem eq_nil_of_tokens? {cs : List Char} (h : tokens? 0 cs = some []) : cs = [] := by
  cases cs with
  | nil => rfl
  | cons c cs =>
    rw [tokens?_outside, Option.bind_eq_some_iff] at h
    obtain ⟨⟨front, next, rest⟩, hread, h⟩ := h
    simp only [Option.map_eq_some_iff, List.append_eq_nil_iff] at h
    obtain ⟨us, _, rfl, _⟩ := h
    rcases Token.readOutside_cases hread with ⟨_, hopen, _⟩ | ⟨_, t, hsingle, _⟩
    · obtain ⟨s, hopened⟩ := runSets_setOpen [] cs
      rw [← hopen] at hopened
      cases hopened
    · cases hsingle

/-- What a text is that is read on its own as a set or an assertion: one token, or one
bracketed set. -/
inductive Alone : List Char → Regex → Prop where
  | token {c : Char} {cs : List Char} {part : Regex} :
      Token.readOutside c cs = some ([.atom part], 0, []) → Alone (c :: cs) part
  | bracket {cs : List Char} {vs : List Token} {opened closed : OpenSet} :
      runSets [] (Token.readSetOpen cs).1 = some [opened] →
      Within 0 (Token.readSetOpen cs).2 vs 0 [']'] → runSets [opened] vs = some [closed] →
      Alone ('[' :: cs) (.set closed.toCharSet)

/-- A text that begins with a bracket and leaves a set or an assertion alone ends where
the bracket closes. -/
theorem alone_of_bracket {cs : List Char} {us : List Token} {s : Reader} {part : Regex}
    (hus : tokens? 1 (Token.readSetOpen cs).2 = some us)
    (hrun : Reader.start.run ((Token.readSetOpen cs).1 ++ us) = some s) (hlone : s.IsLone part)
    (hpart : part.isSimple = true) : Alone ('[' :: cs) part := by
  obtain ⟨vs, rest, ws, hwithin, hws, rfl⟩ := exists_within hus
  obtain ⟨opened, hopened⟩ := runSets_setOpen [] cs
  have single : [opened].length = 0 + 1 := rfl
  obtain ⟨after, hvs, hlength⟩ := hwithin.runSets single
  obtain ⟨closed, rfl⟩ := List.length_eq_one_iff.1 hlength
  have bracketed : Reader.start.run ((Token.readSetOpen cs).1 ++ (vs ++ .setClose :: ws)) =
      (Reader.start.push (.set closed.toCharSet)).run ws := by
    rw [Reader.run_append, Reader.run_of_runSets hopened .start [] rfl, Option.bind_some,
      Reader.run_append, Reader.run_of_runSets hvs _ [] rfl]
    rfl
  rw [bracketed] at hrun
  obtain rfl := (Reader.underway_push .start _).eq_nil_of_run hpart hrun hlone
  obtain rfl := eq_nil_of_tokens? hws
  cases hrun
  obtain rfl : Regex.set closed.toCharSet = part := by
    simpa [Reader.push, Reader.start, Branches.empty, Branches.push] using hlone.current
  exact .bracket hopened hwithin hvs

theorem alone_of_read? {text : List Char} {part : Regex} (h : read? text = some part)
    (hpart : part.isSimple = true) : Alone text part := by
  simp only [read?, Option.bind_eq_bind, Option.bind_eq_some_iff, ofTokens?] at h
  obtain ⟨ts, hts, r, ⟨s, hrun, hfinish⟩, hdepth⟩ := h
  obtain ⟨_, hr⟩ := Option.ite_none_right_eq_some.1 hdepth
  obtain rfl : r = part := Option.some.inj hr
  have lone := Reader.isLone_of_finish hfinish hpart
  cases text with
  | nil =>
    obtain ⟨_, rfl⟩ := tokens?_empty hts
    cases hrun
    exact absurd lone.current (by simp [Reader.start, Branches.empty])
  | cons c cs =>
    rw [tokens?_outside, Option.bind_eq_some_iff] at hts
    obtain ⟨⟨front, next, rest⟩, hread, hts⟩ := hts
    simp only [Option.map_eq_some_iff] at hts
    obtain ⟨us, hus, rfl⟩ := hts
    rcases Token.readOutside_cases hread with ⟨rfl, rfl, rfl, rfl⟩ | ⟨rfl, t, rfl, ht⟩
    · exact alone_of_bracket hus hrun lone hpart
    · rw [List.singleton_append, Reader.run, Option.bind_eq_some_iff] at hrun
      obtain ⟨mid, hfront, hrun⟩ := hrun
      obtain ⟨under, only⟩ := Reader.underway_start ht hfront
      obtain rfl := under.eq_nil_of_run hpart hrun lone
      obtain rfl := eq_nil_of_tokens? hus
      cases hrun
      rw [only r hpart lone] at hread
      exact .token hread

/-! ## Wherever the text stands -/

/-- What stands behind a backslash is read as an escape. -/
theorem Token.exists_readEscape {cs rest : List Char} {part : Regex}
    (h : readOutside '\\' cs = some ([.atom part], 0, rest)) :
    ∃ e, readEscape cs = some (e, rest) ∧ atomOfEscape e = part := by
  simp only [readOutside, Option.map_eq_some_iff, Prod.exists, Prod.mk.injEq, List.cons.injEq,
    Token.atom.injEq] at h
  obtain ⟨e, after, hread, ⟨hatom, _⟩, _, rfl⟩ := h
  exact ⟨e, hread, hatom⟩

theorem Token.readOutside_append {c : Char} {cs rest : List Char} {part : Regex}
    (h : readOutside c cs = some ([.atom part], 0, rest)) (tail : List Char) :
    readOutside c (cs ++ tail) = some ([.atom part], 0, rest ++ tail) := by
  unfold readOutside at h
  split at h
  · simp only [Option.map_eq_some_iff, Prod.exists, Prod.mk.injEq] at h
    obtain ⟨e, after, hread, hts, _, rfl⟩ := h
    show (readEscape (cs ++ tail)).map _ = _
    rw [readEscape_append hread tail, ← hts]
    rfl
  case h_3 => split at h <;> simp at h
  case h_13 =>
    simp only [Option.some.injEq, Prod.mk.injEq] at h
    obtain ⟨hts, _, rfl⟩ := h
    unfold readOutside
    split <;> simp_all
  all_goals
    simp only [Option.some.injEq, Prod.mk.injEq, List.cons.injEq, reduceCtorEq, false_and,
      Nat.succ_ne_zero, and_false] at h
  all_goals
    obtain ⟨⟨hts, _⟩, _, rfl⟩ := h
    rw [← hts]
    rfl

/-- The text of a bracketed set is cut in the same way whatever stands behind it. -/
theorem cuts_bracket {cs : List Char} {vs : List Token}
    (h : Within 0 (Token.readSetOpen cs).2 vs 0 [']']) :
    Cuts ('[' :: cs) ((Token.readSetOpen cs).1 ++ (vs ++ [.setClose])) := by
  intro rest
  have opening : Token.readOutside '[' (cs ++ rest) =
      some ((Token.readSetOpen cs).1, 1, (Token.readSetOpen cs).2 ++ rest) := by
    show some _ = _
    rw [Token.readSetOpen_append h.close_mem rest]
  have closing : Token.readInSet 1 (']' :: rest) = some ([.setClose], 0, rest) := rfl
  have inside := (h.append List.mem_cons_self rest).tokens?
  rw [List.singleton_append, tokens?_of_readInSet closing] at inside
  rw [List.cons_append, tokens?_of_readOutside opening, inside]
  cases tokens? 0 rest <;> simp

/-- A text that is read on its own as a set or an assertion writes it. -/
theorem Alone.writes {text : List Char} {part : Regex} (h : Alone text part) :
    Writes text [part] := by
  cases h with
  | token hread => exact .atom fun rest => Token.readOutside_append hread rest
  | @bracket cs vs opened closed hopened hwithin hclosed =>
    refine ⟨_, cuts_bracket hwithin, fun r hr => ⟨false, ?_⟩⟩
    rw [Reader.run_append, Reader.run_of_runSets hopened r [] hr, Option.bind_some,
      Reader.run_append, Reader.run_of_runSets hclosed _ [] rfl]
    rfl

theorem writes_of_read? {text : List Char} {part : Regex} (h : read? text = some part)
    (hpart : part.isSimple = true) : Writes text [part] :=
  (alone_of_read? h hpart).writes

/-- A letter or a digit is read as itself, so no assertion begins with one. -/
theorem head_of_read?_assert {text : List Char} {a : Assertion}
    (h : read? text = some (.assert a)) : text.head?.any Char.isAlphanum = false := by
  cases alone_of_read? h rfl with
  | @token c cs _ hread =>
    rw [List.head?_cons, Option.any_some, Bool.eq_false_iff]
    intro hc
    unfold Token.readOutside at hread
    split at hread
    case h_13 => cases hread
    all_goals cases hc

/-- A character behind a backslash that is read on its own as the separator is the
separator. -/
theorem eq_of_read?_escape {c d : Char} (h : read? ['\\', c] = some (.set (.single d)))
    (hd : d = '/') : c = '/' := by
  subst hd
  cases alone_of_read? h rfl with
  | token hread =>
    obtain ⟨e, hread, hatom⟩ := Token.exists_readEscape hread
    simp only [Token.readEscape] at hread
    split at hread
    -- a number or a category needs more characters
    case h_1 | h_2 | h_3 => simp [Token.readHex] at hread
    case h_4 | h_5 => simp [Token.readCategory] at hread
    case h_24 =>
      obtain ⟨_, hread⟩ := Option.ite_none_right_eq_some.1 hread
      cases hread
      exact (CharSet.single.inj (Regex.set.inj hatom))
    all_goals
      cases hread
      exact absurd hatom (by decide)

end AccessPolicy.Regex
