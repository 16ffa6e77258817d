import AccessPolicy.Glob.Fragment
import AccessPolicy.Proofs.Glob.Balanced
import AccessPolicy.Proofs.Glob.Formed
import AccessPolicy.Proofs.Text.Trimmed

/-!
# Braces in patterns

What a pattern without sets and without groups in parentheses is translated to hangs on
its braces alone. It is refused as empty when it is blank and at the brace at fault when
its braces do not pair up, and is translated otherwise (`translates_by_braces`). The
offset that is told counts the bytes of the pattern as it is given.

Such a pattern is cut into tokens of which each is a brace or takes characters without
braces (`scan_front`). The reader holds the groups that are open, and these are the
braces that are left open by the text it has read (`reads_scan`). What is dropped from
the ends of a pattern, blanks and anchors, neither is a brace nor escapes one
(`exists_tokens`).
-/

namespace AccessPolicy.Glob

open AccessPolicy.Text
open AccessPolicy.Regex (waits escapesNext escapesNext_append)

/-! ## Steps of the reader -/

/-- The braces at these offsets are open, the latest first, and no other group is. -/
def Reader.Holds (r : Reader) (offsets : List Nat) : Prop :=
  r.current.scope :: r.enclosing.map (·.scope) = offsets.map Scope.brace ++ [.top]

/-- The token is no brace and opens no group. -/
def Token.isInner : Token → Bool
  | .braceOpen _ => false
  | .braceClose _ => false
  | .parenOpen => false
  | _ => true

namespace Reader

variable {r : Reader} {offset : Nat} {offsets : List Nat}

theorem holds_start : start.Holds [] := rfl

theorem Holds.scope_nil (h : r.Holds []) : r.current.scope = .top :=
  (List.cons.inj h).1

theorem Holds.scope_cons (h : r.Holds (offset :: offsets)) : r.current.scope = .brace offset :=
  (List.cons.inj h).1

theorem Holds.openGroup (h : r.Holds offsets) :
    (r.openGroup (.brace offset)).Holds (offset :: offsets) :=
  congrArg (Scope.brace offset :: ·) h

theorem Holds.closeGroup (h : r.Holds (offset :: offsets)) : r.closeGroup.Holds offsets := by
  have around : r.enclosing.map (·.scope) = offsets.map Scope.brace ++ [.top] :=
    (List.cons.inj h).2
  unfold Reader.closeGroup
  cases henclosing : r.enclosing with
  | nil => simp [henclosing] at around
  | cons outer enclosing =>
    rw [henclosing] at around
    exact around

/-- Within braces every token but these is taken. -/
theorem Holds.step (h : r.Holds offsets) {t : Token} (ht : t.isInner = true) :
    ∃ next, r.step t = .ok next ∧ next.Holds offsets := by
  have taken : (∃ part, r.step t = .ok (r.push part)) ∨ r.step t = .ok r.next := by
    have scope : r.current.scope = .top ∨ ∃ o, r.current.scope = .brace o := by
      cases offsets with
      | nil => exact .inl h.scope_nil
      | cons o offsets => exact .inr ⟨o, h.scope_cons⟩
    rcases scope with hscope | ⟨o, hscope⟩ <;> cases t <;>
      simp_all [Reader.step, Token.isInner]
  rcases taken with ⟨part, hstep⟩ | hstep
  · exact ⟨_, hstep, h⟩
  · exact ⟨_, hstep, h⟩

theorem Holds.step_braceClose (h : r.Holds (offset :: offsets)) (o : Nat) :
    r.step (.braceClose o) = .ok r.closeGroup := by
  rw [Reader.step.eq_def]
  simp [h.scope_cons]

theorem Holds.step_braceClose_nil (h : r.Holds []) (o : Nat) :
    r.step (.braceClose o) = .error o := by
  rw [Reader.step.eq_def]
  simp [h.scope_nil]

end Reader

/-! ## One token -/

/-- A part of a text without sets and without groups in parentheses that makes one token
at an offset. -/
inductive Cut (offset : Nat) : List Char → Token → Prop
  | opening : Cut offset ['\x7b'] (.braceOpen offset)
  | closing : Cut offset ['\x7d'] (.braceClose offset)
  | inner {c : Char} {cs : List Char} {t : Token} : braces (c :: cs) = [] → t.isInner = true →
      Cut offset (c :: cs) t

theorem Cut.ne_nil {offset : Nat} {part : List Char} {t : Token} (h : Cut offset part t) :
    part ≠ [] := by
  cases h <;> exact List.cons_ne_nil _ _

/-- Such a text is cut behind a first part, which escapes no more than what it takes. -/
theorem scan_front {c : Char} {cs : List Char} (hset : '[' ∉ c :: cs) (hparen : '(' ∉ c :: cs)
    (offset : Nat) : ∃ part rest t, c :: cs = part ++ rest ∧ Cut offset part t ∧
      (rest = [] ∨ escapesNext part = false) ∧
      scan none offset (c :: cs) = t :: scan none (offset + byteLength part) rest := by
  generalize htext : c :: cs = text at *
  generalize hbracket : (none : Option OpenBracket) = bracket
  fun_cases scan bracket offset text
  case case1 => nomatch htext
  case case12 d rest =>
    refine ⟨['\\', d], rest, .escape d, rfl, .inner rfl rfl, .inr rfl, ?_⟩
    rw [Nat.add_assoc]
    rfl
  case case13 => exact ⟨['\\'], [], .verbatim ['\\'], rfl, .inner rfl rfl, .inl rfl, rfl⟩
  case case14 rest => exact ⟨['*', '*'], rest, .globstar, rfl, .inner rfl rfl, .inr rfl, rfl⟩
  case case15 rest _ => exact ⟨['*'], rest, .star, rfl, .inner rfl rfl, .inr rfl, rfl⟩
  case case16 rest => exact ⟨['?'], rest, .single, rfl, .inner rfl rfl, .inr rfl, rfl⟩
  case case17 rest => exact ⟨['\x7b'], rest, _, rfl, .opening, .inr rfl, rfl⟩
  case case18 rest => exact ⟨['\x7d'], rest, _, rfl, .closing, .inr rfl, rfl⟩
  case case20 rest => exact ⟨[')'], rest, .parenClose, rfl, .inner rfl rfl, .inr rfl, rfl⟩
  case case21 rest => exact ⟨[','], rest, .comma, rfl, .inner rfl rfl, .inr rfl, rfl⟩
  case case22 rest => exact ⟨['|'], rest, .bar, rfl, .inner rfl rfl, .inr rfl, rfl⟩
  case case23 d rest _ _ _ _ hescape hlone _ _ _ hopen hclose _ _ _ _ =>
    have backslash : (d == '\\') = false := by
      rw [beq_eq_false_iff_ne]
      intro hd
      cases rest with
      | nil => exact hlone hd rfl
      | cons e rest => exact hescape e rest hd rfl
    have none : braces [d] = [] := by
      show (Brace.ofChar? d).toList ++ bracesBehind (d == '\\') [] = []
      rw [Brace.ofChar?, if_neg hopen, if_neg hclose]
      rfl
    exact ⟨[d], rest, .char d, rfl, .inner none rfl, .inr backslash, rfl⟩
  -- neither a set is open nor does a set or a group in parentheses open
  all_goals grind

/-! ## Reading a text -/

/-- Reading a text stops at a closing brace without a partner, or holds the braces that
the text leaves open. -/
inductive Reads (text : List Char) : Except Nat Reader → Prop
  | stopped {offset : Nat} : IsUnopened text offset → Reads text (.error offset)
  | held {r : Reader} {offsets : List Nat} : Leaves text offsets → r.Holds offsets →
      Reads text (.ok r)

variable {v : List Char} {r : Reader} {offsets : List Nat}

/-- One token is read behind what was read so far. -/
theorem reads_token {part : List Char} {t : Token} (hcut : Cut (byteLength v) part t)
    (hv : escapesNext v = false) (h : Leaves v offsets) (hr : r.Holds offsets) :
    (r.step t = .error (byteLength v) ∧ ∀ rest, IsUnopened (v ++ (part ++ rest)) (byteLength v)) ∨
      ∃ next later, r.step t = .ok next ∧ next.Holds later ∧ Leaves (v ++ part) later := by
  cases hcut with
  | opening => exact .inr ⟨_, _, rfl, hr.openGroup, h.opening hv⟩
  | closing =>
    cases h with
    | paired balanced =>
      exact .inl ⟨hr.step_braceClose_nil _, fun rest => ⟨v, rest, rfl, hv, balanced, rfl⟩⟩
    | opened ahead hfront balanced =>
      exact .inr ⟨_, _, hr.step_braceClose _, hr.closeGroup,
        (Leaves.opened ahead hfront balanced).closing hv⟩
  | inner hpart ht =>
    obtain ⟨next, hstep, hnext⟩ := hr.step ht
    refine .inr ⟨next, offsets, hstep, hnext, h.append ?_⟩
    rw [hv, ← braces, hpart]
    exact .nil

/-- A text is read behind what was read so far, if that escapes nothing. -/
theorem reads_scan {cs : List Char} (hset : '[' ∉ cs) (hparen : '(' ∉ cs)
    (hv : escapesNext v = false) (h : Leaves v offsets) (hr : r.Holds offsets) :
    Reads (v ++ cs) (r.run (scan none (byteLength v) cs)) := by
  -- one token takes several characters, so the text gets shorter by more than one
  induction hlength : cs.length using Nat.strongRecOn generalizing cs v r offsets with
  | ind n ih =>
    cases cs with
    | nil =>
      rw [List.append_nil]
      exact .held h hr
    | cons c cs =>
      obtain ⟨part, rest, t, htext, hcut, hends, hscan⟩ := scan_front hset hparen (byteLength v)
      rw [hscan, Reader.run]
      rw [htext] at hset hparen hlength ⊢
      rcases reads_token hcut hv h hr with ⟨hstep, unopened⟩ | ⟨next, later, hstep, hnext, left⟩
      · rw [hstep]
        exact .stopped (unopened rest)
      · rw [hstep, ← List.append_assoc, ← byteLength_append]
        rcases hends with rfl | hpart
        · rw [List.append_nil]
          exact .held left hnext
        · have shorter : rest.length < n := by
            have positive := List.length_pos_of_ne_nil hcut.ne_nil
            rw [List.length_append] at hlength
            omega
          refine ih rest.length shorter ?_ ?_ ?_ left hnext rfl
          · exact fun hmem => hset (List.mem_append_right part hmem)
          · exact fun hmem => hparen (List.mem_append_right part hmem)
          · rw [escapesNext_append hv, hpart]

/-! ## The ends of a pattern -/

/-- The character may be dropped from the ends of a pattern. -/
def isEdge (c : Char) : Bool := isBlank c || c == '^' || c == '$'

theorem isEdge_of_isBlank {c : Char} (h : isBlank c = true) : isEdge c = true := by
  rw [isEdge, h]
  rfl

theorem ne_of_isEdge {c d : Char} (hc : isEdge c = true) (hd : isEdge d = false) : c ≠ d := by
  rintro rfl
  exact Bool.false_ne_true (hd.symm.trans hc)

theorem bracesBehind_edges {part : List Char} (h : ∀ c ∈ part, isEdge c = true)
    (waiting : Bool) : bracesBehind waiting part = [] := by
  induction part generalizing waiting with
  | nil => rfl
  | cons c cs ih =>
    obtain ⟨hc, hcs⟩ := List.forall_mem_cons.1 h
    have none : Brace.ofChar? c = none := by
      rw [Brace.ofChar?, if_neg (ne_of_isEdge hc rfl), if_neg (ne_of_isEdge hc rfl)]
    cases waiting with
    | true => exact ih hcs false
    | false =>
      rw [bracesBehind, none, ih hcs]
      rfl

theorem escapesNext_edges {part : List Char} (h : ∀ c ∈ part, isEdge c = true) :
    escapesNext part = false := by
  induction part with
  | nil => rfl
  | cons c cs ih =>
    obtain ⟨hc, hcs⟩ := List.forall_mem_cons.1 h
    have backslash : (c == '\\') = false := beq_eq_false_iff_ne.2 (ne_of_isEdge hc rfl)
    show waits (c == '\\') cs = false
    rw [backslash]
    exact ih hcs

theorem exists_dropEndAnchor (glob : List Char) : ∃ back, (∀ c ∈ back, isEdge c = true) ∧
    glob = dropEndAnchor glob ++ back := by
  unfold dropEndAnchor
  split
  · rename_i rest hreverse
    split
    · exact ⟨[], by simp, (List.append_nil glob).symm⟩
    · refine ⟨['$'], List.forall_mem_singleton.2 rfl, ?_⟩
      rw [← List.reverse_cons, ← hreverse, List.reverse_reverse]
  · exact ⟨[], by simp, (List.append_nil glob).symm⟩

/-- The tokens of a pattern are cut from what is left when its ends are dropped. -/
theorem exists_tokens (cs : List Char) : ∃ front body back, cs = front ++ body ++ back ∧
    (∀ c ∈ front, isEdge c = true) ∧ (∀ c ∈ back, isEdge c = true) ∧
    tokens (byteLength (cs.takeWhile isBlank)) (trimChars cs) =
      scan none (byteLength front) body := by
  obtain ⟨trailing, htrailing, hcs⟩ := exists_trimmed cs
  obtain ⟨anchor, hanchor, hglob⟩ := exists_dropEndAnchor (trimChars cs)
  have leading : ∀ c ∈ cs.takeWhile isBlank, isEdge c = true :=
    fun c hc => isEdge_of_isBlank (List.mem_takeWhile_imp hc)
  have ending : ∀ c ∈ anchor ++ trailing, isEdge c = true := by
    intro c hc
    rcases List.mem_append.1 hc with hc | hc
    · exact hanchor c hc
    · exact isEdge_of_isBlank (htrailing c hc)
  unfold tokens
  split
  · rename_i rest hrest
    refine ⟨cs.takeWhile isBlank ++ ['^'], rest, anchor ++ trailing, ?_, ?_, ending, ?_⟩
    · rw [hrest] at hglob
      simpa [hglob] using hcs
    · exact List.forall_mem_append.2 ⟨leading, List.forall_mem_singleton.2 rfl⟩
    · rw [byteLength_append]
      rfl
  · refine ⟨cs.takeWhile isBlank, dropEndAnchor (trimChars cs), anchor ++ trailing, ?_, leading,
      ending, rfl⟩
    rw [List.append_assoc, ← List.append_assoc _ anchor, ← hglob]
    exact hcs

theorem Reads.append {text back : List Char} {result : Except Nat Reader}
    (h : Reads text result) (hback : ∀ c ∈ back, isEdge c = true) :
    Reads (text ++ back) result := by
  cases h with
  | stopped unopened =>
    obtain ⟨front, rest, rfl, hfront, balanced, rfl⟩ := unopened
    rw [List.append_assoc, List.cons_append]
    exact .stopped ⟨front, rest ++ back, rfl, hfront, balanced, rfl⟩
  | held left hr =>
    refine .held (left.append ?_) hr
    rw [bracesBehind_edges hback]
    exact .nil

/-! ## Patterns -/

theorem ofTokens?_of_reads {pattern : String} {ts : List Token}
    (h : Reads pattern.toList (Reader.start.run ts)) :
    ((∃ parts, ofTokens? pattern ts = .ok parts) ∧ Balanced (braces pattern.toList)) ∨
      ∃ offset, ofTokens? pattern ts = .error (.unbalancedBrace pattern offset) ∧
        AtFault pattern.toList offset := by
  unfold ofTokens?
  generalize Reader.start.run ts = result at h
  cases h with
  | stopped unopened => exact .inr ⟨_, rfl, .inl unopened⟩
  | @held r offsets left hr =>
    cases offsets with
    | nil =>
      refine .inl ⟨⟨r.current.parts.reverse, ?_⟩, left.balanced⟩
      simp only [hr.scope_nil]
    | cons offset offsets =>
      refine .inr ⟨offset, ?_, left.atFault⟩
      simp only [hr.scope_cons]

section

variable {pattern : String} (hparen : '(' ∉ pattern.toList) (hset : '[' ∉ pattern.toList)

include hparen hset

theorem reads_pattern : Reads pattern.toList (Reader.start.run
    (tokens (byteLength (pattern.toList.takeWhile isBlank)) (trimChars pattern.toList))) := by
  obtain ⟨front, body, back, hchars, hfront, hback, htokens⟩ := exists_tokens pattern.toList
  rw [htokens]
  rw [hchars] at hparen hset ⊢
  refine Reads.append (reads_scan ?_ ?_ (escapesNext_edges hfront) (.paired ?_)
    Reader.holds_start) hback
  · exact fun hmem => hset (List.mem_append_left back (List.mem_append_right front hmem))
  · exact fun hmem => hparen (List.mem_append_left back (List.mem_append_right front hmem))
  · rw [braces, bracesBehind_edges hfront]
    exact .nil

/-- A pattern that is not blank is translated if its braces pair up, and otherwise is
refused at the brace that is at fault. -/
theorem translate?_of_not_blank (hblank : ¬ ∀ c ∈ pattern.toList, isBlank c = true) :
    ((∃ written, translate? pattern = .ok written) ∧ Balanced (braces pattern.toList)) ∨
      ∃ offset, translate? pattern = .error (.unbalancedBrace pattern offset) ∧
        AtFault pattern.toList offset := by
  have nonempty : (trimChars pattern.toList).isEmpty = false := by
    rw [List.isEmpty_eq_false_iff, ne_eq, trimChars_eq_nil_iff]
    exact hblank
  have read : ofPattern? pattern = ofTokens? pattern
      (tokens (byteLength (pattern.toList.takeWhile isBlank)) (trimChars pattern.toList)) := by
    simp [ofPattern?, nonempty]
  rw [translate?, read]
  rcases ofTokens?_of_reads (reads_pattern hparen hset) with
    ⟨⟨parts, hparts⟩, balanced⟩ | ⟨offset, herror, fault⟩
  · rw [hparts]
    exact .inl ⟨⟨_, rfl⟩, balanced⟩
  · rw [herror]
    exact .inr ⟨offset, rfl, fault⟩

end

theorem translate?_of_blank {pattern : String} (h : ∀ c ∈ pattern.toList, isBlank c = true) :
    translate? pattern = .error .empty := by
  have trimmed : trimChars pattern.toList = [] := trimChars_eq_nil_iff.2 h
  rw [translate?, ofPattern?, trimmed]
  rfl

/-- Without sets and without groups in parentheses, a pattern is refused as empty when it
is blank, is refused at the brace at fault when its braces do not pair up, and is
translated otherwise. -/
theorem translates_by_braces {pattern : String} (hparen : '(' ∉ pattern.toList)
    (hset : '[' ∉ pattern.toList) :
    (translate? pattern = .error .empty ↔ ∀ c ∈ pattern.toList, isBlank c = true) ∧
    ((∃ offset, translate? pattern = .error (.unbalancedBrace pattern offset)) ↔
      ¬ Balanced (braces pattern.toList)) ∧
    (∀ offset, translate? pattern = .error (.unbalancedBrace pattern offset) ↔
      AtFault pattern.toList offset) ∧
    ((∃ written, translate? pattern = .ok written) ↔
      (¬ ∀ c ∈ pattern.toList, isBlank c = true) ∧ Balanced (braces pattern.toList)) := by
  by_cases hblank : ∀ c ∈ pattern.toList, isBlank c = true
  · have refused := translate?_of_blank hblank
    have balanced : Balanced (braces pattern.toList) := by
      rw [braces, bracesBehind_edges fun c hc => isEdge_of_isBlank (hblank c hc)]
      exact .nil
    refine ⟨iff_of_true refused hblank, iff_of_false ?_ (not_not_intro balanced),
      fun offset => iff_of_false ?_ (not_atFault balanced offset),
      iff_of_false ?_ fun h => h.1 hblank⟩ <;> simp [refused]
  · rcases translate?_of_not_blank hparen hset hblank with
      ⟨⟨written, translated⟩, balanced⟩ | ⟨offset, refused, fault⟩
    · refine ⟨iff_of_false ?_ hblank, iff_of_false ?_ (not_not_intro balanced),
        fun offset => iff_of_false ?_ (not_atFault balanced offset),
        iff_of_true ⟨written, translated⟩ ⟨hblank, balanced⟩⟩ <;> simp [translated]
    · have unbalanced : ¬ Balanced (braces pattern.toList) :=
        fun balanced => not_atFault balanced offset fault
      refine ⟨iff_of_false ?_ hblank, iff_of_true ⟨offset, refused⟩ unbalanced, fun o => ?_,
        iff_of_false ?_ fun h => unbalanced h.2⟩
      · simp [refused]
      · constructor
        · intro h
          rw [refused] at h
          cases h
          exact fault
        · intro h
          rw [refused, h.unique fault]
      · simp [refused]

/-- Behind a blank and a character of two bytes the outer one of two braces is not closed,
because the last closing brace is escaped. -/
theorem translates_by_braces_indented :
    let pattern := " é\x7ba\x7bb,c\x7d\\\x7d "
    '(' ∉ pattern.toList ∧ '[' ∉ pattern.toList ∧
      translate? pattern = .error (.unbalancedBrace pattern 3) ∧ AtFault pattern.toList 3 := by
  intro pattern
  have paren : '(' ∉ pattern.toList := by decide
  have set : '[' ∉ pattern.toList := by decide
  have refused : translate? pattern = .error (.unbalancedBrace pattern 3) := by decide
  exact ⟨paren, set, refused, ((translates_by_braces paren set).2.2.1 3).1 refused⟩

end AccessPolicy.Glob
