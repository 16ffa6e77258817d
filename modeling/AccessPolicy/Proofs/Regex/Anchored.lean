import AccessPolicy.Proofs.Regex.Escapes

/-!
# Expressions between `^` and `$`

Writing `^` before a text and `$` behind it anchors the expression at both ends,
unless the text has a bar outside groups or escapes the `$`. The `^` stays the
first part of the first branch, because no quantifier repeats it
(`Reader.Led.run`), and the `$` the last part of the last branch
(`tokens?_textEnd`); with one branch only, both hold of the same match
(`read?_anchored`).
-/

namespace AccessPolicy.Regex

/-! ## Brackets that are open -/

/-- How many brackets are open behind a token. A quantifier stands outside
brackets only. -/
def Token.levelAfter? (depth : Nat) : Token → Option Nat
  | .setOpen _ => some (depth + 1)
  | .setClose => some (depth - 1)
  | .quantifier _ => if depth = 0 then some 0 else none
  | _ => some depth

/-- How many brackets are open behind tokens. -/
def levelAfter? (depth : Nat) : List Token → Option Nat
  | [] => some depth
  | t :: ts => (t.levelAfter? depth).bind fun next => levelAfter? next ts

theorem levelAfter?_append (depth : Nat) (ts us : List Token) :
    levelAfter? depth (ts ++ us) = (levelAfter? depth ts).bind fun next => levelAfter? next us := by
  induction ts generalizing depth with
  | nil => rfl
  | cons t ts ih =>
    rw [List.cons_append, levelAfter?, levelAfter?]
    cases t.levelAfter? depth with
    | none => rfl
    | some next => exact ih next

theorem levelAfter?_members (depth : Nat) (cs : List Char) :
    levelAfter? depth (cs.map fun c => Token.setMember (.single c)) = some depth := by
  induction cs with
  | nil => rfl
  | cons c cs ih => exact ih

theorem levelAfter?_setOpen (depth : Nat) (cs : List Char) :
    levelAfter? depth (Token.readSetOpen cs).1 = some (depth + 1) := by
  unfold Token.readSetOpen
  simp only
  split
  · rename_i hhyphens _
    rw [hhyphens]
    rfl
  · exact levelAfter?_members (depth + 1) _

theorem levelAfter?_inSet {depth next : Nat} {cs rest : List Char} {ts : List Token}
    (h : Token.readInSet depth cs = some (ts, next, rest)) : levelAfter? depth ts = some next := by
  unfold Token.readInSet at h
  split at h
  · split at h
    · simp only [Option.some.injEq, Prod.mk.injEq] at h
      obtain ⟨rfl, rfl, _⟩ := h
      rfl
    · simp only [Option.some.injEq, Prod.mk.injEq] at h
      obtain ⟨rfl, rfl, _⟩ := h
      exact levelAfter?_setOpen _ _
  case h_6 =>
    simp only [Option.map_eq_some_iff, Prod.exists, Prod.mk.injEq] at h
    obtain ⟨s, tail, _, rfl, rfl, _⟩ := h
    rfl
  all_goals
    simp only [Option.some.injEq, Prod.mk.injEq] at h
    obtain ⟨rfl, rfl, _⟩ := h
    rfl

theorem levelAfter?_outside {next : Nat} {c : Char} {cs rest : List Char} {ts : List Token}
    (h : Token.readOutside c cs = some (ts, next, rest)) : levelAfter? 0 ts = some next := by
  unfold Token.readOutside at h
  split at h
  · simp only [Option.map_eq_some_iff, Prod.exists, Prod.mk.injEq] at h
    obtain ⟨e, tail, _, rfl, rfl, _⟩ := h
    rfl
  · simp only [Option.some.injEq, Prod.mk.injEq] at h
    obtain ⟨rfl, rfl, _⟩ := h
    exact levelAfter?_setOpen _ _
  case h_9 => simp at h
  case h_3 =>
    split at h
    case h_2 => simp at h
    all_goals
      simp only [Option.some.injEq, Prod.mk.injEq] at h
      obtain ⟨rfl, rfl, _⟩ := h
      rfl
  all_goals
    simp only [Option.some.injEq, Prod.mk.injEq] at h
    obtain ⟨rfl, rfl, _⟩ := h
    rfl

/-- The tokens of a text close every bracket, and quantifiers stand outside. -/
theorem tokens?_level {depth : Nat} {cs : List Char} {ts : List Token}
    (h : tokens? depth cs = some ts) : levelAfter? depth ts = some 0 := by
  fun_induction tokens? depth cs generalizing ts
  · simp only [Option.some.injEq] at h
    rw [← h]
    rfl
  · simp at h
  · simp at h
  · rename_i c cs front next rest hread ih
    simp only [Option.map_eq_some_iff] at h
    obtain ⟨us, hus, rfl⟩ := h
    rw [levelAfter?_append, levelAfter?_outside hread]
    exact ih hus
  · simp at h
  · rename_i c cs depth front next rest hread ih
    simp only [Option.map_eq_some_iff] at h
    obtain ⟨us, hus, rfl⟩ := h
    rw [levelAfter?_append, levelAfter?_inSet hread]
    exact ih hus

/-! ## The first branch -/

/-- The first branch begins with the start of the text. While that is all that
is read of it, `covered` holds. -/
def Branches.Led (b : Branches) (covered : Prop) : Prop :=
  (∃ later first, b.done = later ++ [catAll (.assert .textStart :: first)]) ∨
    b.done = [] ∧ ∃ more, b.parts = more ++ [.assert .textStart] ∧ (more = [] → covered)

namespace Branches

variable {b : Branches} {covered : Prop}

theorem Led.mono {covers : Prop} (h : b.Led covered) (hc : covered → covers) : b.Led covers := by
  rcases h with h | ⟨hdone, more, hparts, hcovered⟩
  · exact .inl h
  · exact .inr ⟨hdone, more, hparts, fun hmore => hc (hcovered hmore)⟩

theorem Led.push (h : b.Led covered) (part : Regex) {covers : Prop} : (b.push part).Led covers := by
  rcases h with h | ⟨hdone, more, hparts, _⟩
  · exact .inl h
  · exact .inr ⟨hdone, part :: more, by simp [Branches.push, hparts], by simp⟩

theorem Led.next (h : b.Led covered) {covers : Prop} : b.next.Led covers := by
  rcases h with ⟨later, first, hdone⟩ | ⟨hdone, more, hparts, _⟩
  · exact .inl ⟨catAll b.parts.reverse :: later, first, by simp [Branches.next, hdone]⟩
  · exact .inl ⟨[], more.reverse, by simp [Branches.next, hdone, hparts]⟩

/-- A quantifier repeats the part before it, which is not the start of the text. -/
theorem Led.repeated (h : b.Led covered) (hc : ¬ covered) {part : Regex} {parts : List Regex}
    (hparts : b.parts = part :: parts) (q : Quantifier) {covers : Prop} :
    Branches.Led ⟨b.done, q.apply part :: parts⟩ covers := by
  rcases h with h | ⟨hdone, more, hmore, hcovered⟩
  · exact .inl h
  · cases more with
    | nil => exact absurd (hcovered rfl) hc
    | cons first more =>
      obtain ⟨_, hrest⟩ : part = first ∧ parts = more ++ [.assert .textStart] := by
        rw [hparts] at hmore
        simpa using hmore
      exact .inr ⟨hdone, q.apply part :: more, by rw [hrest]; simp, by simp⟩

end Branches

namespace Reader

/-- The branches outside every group. -/
def outermost (r : Reader) : Branches := r.enclosing.getLastD r.current

/-- Whether a group or a bracketed set is open. -/
def IsInside (r : Reader) : Prop := r.enclosing ≠ [] ∨ r.sets ≠ []

variable {r s : Reader}

theorem step_level {t : Token} {next : Nat} (h : r.step t = some s)
    (hlevel : t.levelAfter? r.sets.length = some next) : s.sets.length = next := by
  cases t with
  | atom _ | setOpen _ =>
    simp only [step, Token.levelAfter?, Option.some.injEq] at h hlevel
    rw [← h, ← hlevel]
    rfl
  | bar | groupOpen =>
    simp only [step, Token.levelAfter?, Option.some.injEq] at h hlevel
    rw [← h, ← hlevel]
  | groupClose =>
    simp only [step, closeGroup, Token.levelAfter?, Option.some.injEq] at h hlevel
    split at h
    · simp at h
    · simp only [Option.some.injEq] at h
      rw [← h, ← hlevel]
  | quantifier q =>
    simp only [Token.levelAfter?, Option.ite_none_right_eq_some, Option.some.injEq] at hlevel
    simp only [step, quantify] at h
    grind
  | setMember member | setOp o =>
    simp only [step, Token.levelAfter?, Option.some.injEq] at h hlevel
    grind
  | setClose =>
    simp only [step, closeSet, Token.levelAfter?, Option.some.injEq] at h hlevel
    grind [push]

/-- A step inside a group that stays open. -/
theorem Led.within {covered : Prop} (h : r.outermost.Led covered) {outer : Branches}
    {enclosing : List Branches} (hr : r.enclosing = outer :: enclosing)
    (hs : s.enclosing = outer :: enclosing) : s.outermost.Led s.IsInside := by
  have same : s.outermost = r.outermost := by
    rw [outermost, outermost, hr, hs, List.getLastD_cons, List.getLastD_cons]
  rw [same]
  exact h.mono fun _ => .inl (by simp [hs])

theorem led_push {covered : Prop} (h : r.outermost.Led covered) (part : Regex) :
    (r.push part).outermost.Led (r.push part).IsInside := by
  obtain ⟨enclosing, current, sets, after⟩ := r
  cases enclosing with
  | nil => exact Branches.Led.push h part
  | cons outer enclosing => exact Led.within h rfl rfl

/-- A step inside brackets that stay open. -/
theorem led_inSet {covered : Prop} (h : r.outermost.Led covered)
    (hs : s.outermost = r.outermost) (hsets : s.sets ≠ []) : s.outermost.Led s.IsInside := by
  rw [hs]
  exact h.mono fun _ => .inr hsets

/-- A quantifier repeats the part before it, which is not the start of the text
where that is all that is read of the first branch. -/
theorem led_quantifier {q : Quantifier} {covered : Prop} (h : r.outermost.Led covered)
    (hsets : r.sets = []) (hcovered : covered → r.IsInside)
    (hstep : r.step (.quantifier q) = some s) : s.outermost.Led s.IsInside := by
  obtain ⟨enclosing, current, sets, after⟩ := r
  cases enclosing with
  | nil =>
    have free : ¬ covered := by
      intro hc
      rcases hcovered hc with henclosing | hset
      · exact henclosing rfl
      · exact hset hsets
    simp only [step] at hstep
    split at hstep
    · simp only [Option.some.injEq] at hstep
      subst hstep
      exact h.mono fun hc => absurd hc free
    · cases hparts : current.parts with
      | nil => simp [quantify, hparts] at hstep
      | cons part parts =>
        simp only [quantify, hparts, Option.some.injEq] at hstep
        subst hstep
        exact h.repeated free hparts q
  | cons outer enclosing =>
    have hs : s.enclosing = outer :: enclosing := by
      simp only [step, quantify] at hstep
      grind
    exact Led.within h rfl hs

/-- No token takes the start of the text from the front of the first branch. A
quantifier would, where nothing else is read. -/
theorem led_step {t : Token} {covered : Prop} (h : r.outermost.Led covered)
    (hq : ∀ q, t = .quantifier q → r.sets = [] ∧ (covered → r.IsInside))
    (hstep : r.step t = some s) : s.outermost.Led s.IsInside := by
  cases t with
  | quantifier q => exact led_quantifier h (hq q rfl).1 (hq q rfl).2 hstep
  | atom part =>
    simp only [step, Option.some.injEq] at hstep
    subst hstep
    exact led_push h part
  | bar =>
    simp only [step, Option.some.injEq] at hstep
    subst hstep
    obtain ⟨enclosing, current, sets, after⟩ := r
    cases enclosing with
    | nil => exact h.next
    | cons outer enclosing => exact Led.within h rfl rfl
  | groupOpen =>
    simp only [step, Option.some.injEq] at hstep
    subst hstep
    have same : outermost ⟨r.current :: r.enclosing, .empty, r.sets, false⟩ = r.outermost :=
      List.getLastD_cons
    rw [same]
    exact h.mono fun _ => .inl (by simp)
  | groupClose =>
    obtain ⟨enclosing, current, sets, after⟩ := r
    cases enclosing with
    | nil => simp [step, closeGroup] at hstep
    | cons outer enclosing =>
      simp only [step, closeGroup, Option.some.injEq] at hstep
      subst hstep
      rw [outermost, List.getLastD_cons] at h
      exact led_push (r := ⟨enclosing, outer, sets, after⟩) h _
  | setOpen negated =>
    simp only [step, Option.some.injEq] at hstep
    subst hstep
    exact led_inSet h rfl (by simp)
  | setMember member | setOp o =>
    obtain ⟨enclosing, current, sets, after⟩ := r
    cases sets with
    | nil => simp [step] at hstep
    | cons innermost sets =>
      simp only [step, Option.some.injEq] at hstep
      subst hstep
      exact led_inSet h rfl (by simp)
  | setClose =>
    obtain ⟨enclosing, current, sets, after⟩ := r
    cases sets with
    | nil => simp [step, closeSet] at hstep
    | cons innermost sets =>
      cases sets with
      | nil =>
        simp only [step, closeSet, Option.some.injEq] at hstep
        subst hstep
        exact led_push (r := ⟨enclosing, current, [], after⟩) h _
      | cons outer sets =>
        simp only [step, closeSet, Option.some.injEq] at hstep
        subst hstep
        exact led_inSet h rfl (by simp)

theorem led_run {ts : List Token} {depth : Nat} (h : r.outermost.Led r.IsInside)
    (hlevel : levelAfter? r.sets.length ts = some depth) (hrun : r.run ts = some s) :
    s.outermost.Led s.IsInside := by
  induction ts generalizing r with
  | nil =>
    simp only [run, Option.some.injEq] at hrun
    exact hrun ▸ h
  | cons t ts ih =>
    rw [levelAfter?, Option.bind_eq_some_iff] at hlevel
    obtain ⟨next, hnext, hlevel⟩ := hlevel
    rw [run, Option.bind_eq_some_iff] at hrun
    obtain ⟨mid, hstep, hrun⟩ := hrun
    refine ih (led_step h ?_ hstep) ?_ hrun
    · intro q hq
      rw [hq, Token.levelAfter?, Option.ite_none_right_eq_some] at hnext
      exact ⟨List.length_eq_zero_iff.1 hnext.1, id⟩
    · rw [step_level hstep hnext]
      exact hlevel

end Reader

/-! ## Both anchors -/

/-- The text does not begin with a quantifier, which would repeat what stands
before it. -/
def frontIsFree : List Char → Bool
  | [] => true
  | c :: _ => c != '*' && c != '+' && c != '?'

theorem frontIsFree_append {v w : List Char} (hv : frontIsFree v = true)
    (hw : frontIsFree w = true) : frontIsFree (v ++ w) = true := by
  cases v with
  | nil => exact hw
  | cons c cs => exact hv

/-- Only the sign of a quantifier is cut into one. -/
theorem outside_head {c : Char} {cs rest : List Char} {ts : List Token} {next : Nat}
    (h : Token.readOutside c cs = some (ts, next, rest)) (hc : frontIsFree (c :: cs) = true) :
    ∃ t us, ts = t :: us ∧ ∀ q, t ≠ .quantifier q := by
  unfold Token.readOutside at h
  split at h
  · simp only [Option.map_eq_some_iff, Prod.exists, Prod.mk.injEq] at h
    obtain ⟨e, tail, _, rfl, _⟩ := h
    exact ⟨_, _, rfl, by simp⟩
  · simp only [Option.some.injEq, Prod.mk.injEq] at h
    obtain ⟨rfl, _⟩ := h
    unfold Token.readSetOpen
    simp only
    split <;> exact ⟨_, _, rfl, by simp⟩
  case h_3 =>
    split at h
    case h_2 => simp at h
    all_goals
      simp only [Option.some.injEq, Prod.mk.injEq] at h
      obtain ⟨rfl, _⟩ := h
      exact ⟨_, _, rfl, by simp⟩
  case h_6 | h_7 | h_8 => simp [frontIsFree] at hc
  case h_9 => simp at h
  all_goals
    simp only [Option.some.injEq, Prod.mk.injEq] at h
    obtain ⟨rfl, _⟩ := h
    exact ⟨_, _, rfl, by simp⟩

theorem tokens?_head {body : List Char} {ts : List Token} (h : tokens? 0 body = some ts)
    (hfront : frontIsFree body = true) :
    ts = [] ∨ ∃ t us, ts = t :: us ∧ ∀ q, t ≠ .quantifier q := by
  cases body with
  | nil => exact .inl (tokens?_empty h).2
  | cons c cs =>
    rw [tokens?_outside, Option.bind_eq_some_iff] at h
    obtain ⟨⟨front, next, rest⟩, hread, h⟩ := h
    simp only [Option.map_eq_some_iff] at h
    obtain ⟨us, _, rfl⟩ := h
    obtain ⟨t, ts, rfl, ht⟩ := outside_head hread hfront
    exact .inr ⟨t, ts ++ us, rfl, ht⟩

/-- The start of the text is read, and nothing else. -/
def Reader.anchored : Reader := ⟨[], ⟨[], [.assert .textStart]⟩, [], false⟩

theorem Reader.led_anchored : Reader.anchored.outermost.Led True :=
  .inr ⟨rfl, [], rfl, fun _ => trivial⟩

/-- Behind `^`, the first branch begins with the start of the text, whatever is
read that does not begin with a quantifier. -/
theorem Reader.led_of_run {body : List Char} {ts : List Token} {s : Reader}
    (hts : tokens? 0 body = some ts)
    (hfront : frontIsFree body = true)
    (hrun : Reader.anchored.run ts = some s) : s.outermost.Led True := by
  have hlevel := tokens?_level hts
  rcases tokens?_head hts hfront with rfl | ⟨t, us, rfl, ht⟩
  · simp only [Reader.run, Option.some.injEq] at hrun
    exact hrun ▸ Reader.led_anchored
  · rw [levelAfter?, Option.bind_eq_some_iff] at hlevel
    obtain ⟨next, hnext, hlevel⟩ := hlevel
    rw [Reader.run, Option.bind_eq_some_iff] at hrun
    obtain ⟨mid, hstep, hrun⟩ := hrun
    have led := Reader.led_step Reader.led_anchored (fun q hq => absurd hq (ht q)) hstep
    have levels : levelAfter? mid.sets.length us = some 0 := by
      rw [Reader.step_level hstep hnext]
      exact hlevel
    exact (Reader.led_run led levels hrun).mono fun _ => trivial

/-- Reading `^` and a text behind it that does not begin with a quantifier. -/
theorem led_of_read? {body : List Char} {r : Regex} (h : read? ('^' :: body) = some r)
    (hfront : frontIsFree body = true) :
    ∃ ts s, tokens? 0 body = some ts ∧ Reader.anchored.run ts = some s ∧
      s.current.Led True ∧ r = s.current.toRegex := by
  unfold read? at h
  simp only [Option.bind_eq_bind, Option.bind_eq_some_iff, Option.ite_none_right_eq_some,
    Option.some.injEq] at h
  obtain ⟨us, hus, q, hq, _, rfl⟩ := h
  have caret : Token.readOutside '^' body = some ([.atom (.assert .textStart)], 0, body) := rfl
  rw [tokens?_of_readOutside caret, Option.map_eq_some_iff] at hus
  obtain ⟨ts, hts, rfl⟩ := hus
  unfold ofTokens? at hq
  rw [Option.bind_eq_some_iff] at hq
  obtain ⟨s, hrun, hfinish⟩ := hq
  unfold Reader.finish at hfinish
  simp only [Bool.and_eq_true, List.isEmpty_iff, Option.ite_none_right_eq_some,
    Option.some.injEq] at hfinish
  obtain ⟨⟨henclosing, _⟩, rfl⟩ := hfinish
  have led := Reader.led_of_run hts hfront hrun
  rw [Reader.outermost, henclosing] at led
  exact ⟨ts, s, hts, hrun, led, rfl⟩

/-- The expression is a choice. -/
def isChoice : Regex → Bool
  | .alt _ _ => true
  | _ => false

theorem isChoice_altAll (r s : Regex) (rest : List Regex) :
    (altAll (r :: rest ++ [s])).isChoice = true := by
  cases rest <;> rfl

theorem isChoice_fromStart (mid : List Regex) :
    (catAll (.assert .textStart :: mid)).isChoice = false := by
  cases mid <;> rfl

/-- A choice between the branches that are read, of which the first is anchored
at the start, is that one branch or begins with it. -/
theorem Branches.Led.toRegex {b : Branches} (h : b.Led True) :
    (∃ more, b.parts = more ++ [.assert .textStart] ∧
        b.toRegex = catAll (.assert .textStart :: more.reverse)) ∨
      ∃ first between, b.toRegex =
        altAll (catAll (.assert .textStart :: first) :: between ++ [catAll b.parts.reverse]) := by
  rcases h with ⟨later, first, hdone⟩ | ⟨hdone, more, hparts, _⟩
  · exact .inr ⟨first, later.reverse, by simp [Branches.toRegex, Branches.next, hdone]⟩
  · exact .inl ⟨more, hparts, by simp [Branches.toRegex, Branches.next, hdone, hparts, altAll]⟩

/-- A text behind `^` is one sequence from the start of the text, or a choice
whose first branch is anchored there. -/
theorem read?_caret {body : List Char} {r : Regex} (h : read? ('^' :: body) = some r)
    (hfront : frontIsFree body = true) :
    (∃ mid, r = catAll (.assert .textStart :: mid)) ∨
      ∃ first between last, r = altAll (catAll (.assert .textStart :: first) ::
        between ++ [last]) := by
  obtain ⟨_, s, _, _, led, rfl⟩ := led_of_read? h hfront
  rcases led.toRegex with ⟨more, _, hr⟩ | ⟨first, between, hr⟩
  · exact .inl ⟨more.reverse, hr⟩
  · exact .inr ⟨first, between, _, hr⟩

/-- A text between `^` and a `$` that is not escaped is one sequence between
both ends, or a choice whose first branch is anchored at the start and whose
last one at the end. -/
theorem read?_anchored {body : List Char} {r : Regex}
    (h : read? ('^' :: (body ++ ['$'])) = some r) (hfront : frontIsFree body = true)
    (hend : escapesNext body = false) :
    (∃ mid, r = catAll (.assert .textStart :: (mid ++ [.assert .textEnd]))) ∨
      ∃ first between last, r = altAll (catAll (.assert .textStart :: first) ::
        between ++ [catAll (last ++ [.assert .textEnd])]) := by
  obtain ⟨ts, s, hts, hrun, led, rfl⟩ := led_of_read? h (frontIsFree_append hfront rfl)
  -- the last token appends the end of the text to the branch being read
  obtain ⟨us, rfl⟩ := tokens?_textEnd hts hend
  rw [Reader.run_append, Option.bind_eq_some_iff] at hrun
  obtain ⟨before, _, hlast⟩ := hrun
  have parts : s.current.parts = .assert .textEnd :: before.current.parts := by
    simp only [Reader.run, Reader.step, Option.bind_some, Option.some.injEq] at hlast
    rw [← hlast]
    rfl
  rcases led.toRegex with ⟨more, hmore, hr⟩ | ⟨first, between, hr⟩
  · cases more with
    | nil => simp [parts] at hmore
    | cons last more =>
      rw [parts, List.cons_append, List.cons.injEq] at hmore
      exact .inl ⟨more.reverse, by rw [hr, List.reverse_cons, ← hmore.1]⟩
  · refine .inr ⟨first, between, before.current.parts.reverse, ?_⟩
    rw [hr, parts, List.reverse_cons]

/-! ## What is found -/

variable {text : List Char} {i j : Nat}

theorem matches_fromStart {mid : List Regex} :
    Matches text (catAll (.assert .textStart :: mid)) i j → i = 0 := by
  intro h
  rw [matches_catAll, matchesAll_cons] at h
  obtain ⟨_, hstart, _⟩ := h
  exact (matches_textStart.1 hstart).1

theorem matches_toEnd {mid : List Regex} :
    Matches text (catAll (mid ++ [.assert .textEnd])) i j → j = text.length := by
  intro h
  rw [matches_catAll, matchesAll_append] at h
  obtain ⟨_, _, hend⟩ := h
  exact (matches_textEnd.1 (matchesAll_singleton.1 hend)).2

theorem found_altAll {rs : List Regex} (hne : rs ≠ []) :
    Found (altAll rs) text ↔ ∃ r ∈ rs, Found r text := by
  refine ⟨fun h => ?_, fun h => ?_⟩
  · obtain ⟨i, j, hi, hm⟩ := h
    obtain ⟨r, hr, hm⟩ := (matches_altAll hne).1 hm
    exact ⟨r, hr, i, j, hi, hm⟩
  · obtain ⟨r, hr, i, j, hi, hm⟩ := h
    exact ⟨i, j, hi, (matches_altAll hne).2 ⟨r, hr, hm⟩⟩

theorem found_fromStart {mid : List Regex} :
    Found (catAll (.assert .textStart :: mid)) text ↔ ∃ j, MatchesAll text mid 0 j := by
  refine ⟨fun h => ?_, fun h => ?_⟩
  · obtain ⟨i, j, _, hm⟩ := h
    rw [matches_catAll, matchesAll_cons] at hm
    obtain ⟨k, hstart, hmid⟩ := hm
    rw [(matches_textStart.1 hstart).2] at hmid
    exact ⟨j, hmid⟩
  · obtain ⟨j, hmid⟩ := h
    refine ⟨0, j, Nat.zero_le _, ?_⟩
    rw [matches_catAll, matchesAll_cons]
    exact ⟨0, matches_textStart.2 ⟨rfl, rfl⟩, hmid⟩

theorem found_toEnd {mid : List Regex} :
    Found (catAll (mid ++ [.assert .textEnd])) text ↔
      ∃ i, i ≤ text.length ∧ MatchesAll text mid i text.length := by
  refine ⟨fun h => ?_, fun h => ?_⟩
  · obtain ⟨i, j, hi, hm⟩ := h
    rw [matches_catAll, matchesAll_append] at hm
    obtain ⟨k, hmid, hend⟩ := hm
    rw [(matches_textEnd.1 (matchesAll_singleton.1 hend)).1] at hmid
    exact ⟨i, hi, hmid⟩
  · obtain ⟨i, hi, hmid⟩ := h
    refine ⟨i, text.length, hi, ?_⟩
    rw [matches_catAll, matchesAll_append]
    exact ⟨text.length, hmid, matchesAll_singleton.2 (matches_textEnd.2 ⟨rfl, rfl⟩)⟩

end AccessPolicy.Regex
