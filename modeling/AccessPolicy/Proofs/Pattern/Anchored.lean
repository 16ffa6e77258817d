import AccessPolicy.Proofs.Glob.Paired
import AccessPolicy.Proofs.Pattern.Cached
import AccessPolicy.Proofs.Pattern.Meaning

/-!
# Which patterns match whole names

The expression of a pattern is written between `^` and `$`. A pattern that
matches some part of a name then matches from its first character to its last,
unless a bar outside groups splits the expression or a backslash at the end of
it escapes the `$` (`Pattern.isMatch_iff_matches`). With a bar only the
first branch is held to the start of a name and only the last one to its end;
with an escaped `$` nothing is held to the end.

The bar and the backslash are signs of the pattern itself, where its sets are
read on their own (`Pattern.isMatch_iff_by_form`). A set that does not close is
passed on with all that is behind it, and text that a glob takes for one set may
be more than one in an expression. Such text can hold any syntax of expressions.
-/

namespace AccessPolicy

open AccessPolicy.Regex (frontIsFree frontIsFree_append)

/-! ## The front of a glob's expression -/

namespace Glob

theorem frontIsFree_of_beginsAnew {text : List Char} (h : beginsAnew text = true) :
    frontIsFree text = true := by
  cases text with
  | nil => rfl
  | cons c cs => exact h

theorem charText_frontIsFree {c : Char} (h : isLiteral c = true) :
    frontIsFree (charText c) = true := by
  unfold charText
  split
  · rfl
  · rename_i hc
    simp only [isLiteral, Bool.and_eq_true, bne_iff_ne] at h
    have plus : c ≠ '+' := by
      intro hp
      simp [hp] at hc
    simp [frontIsFree, h, plus]

theorem setFragment_whole (text : List Char) : (setFragment text).whole = text := by
  unfold setFragment
  split <;> rfl

/-- No quantifier stands at the front of a part, whatever is before it. -/
theorem writing_frontIsFree {part : Part} (h : part.isFormed = true) (prior : Ending) :
    frontIsFree (part.writing.after prior).whole = true := by
  cases part with
  | char c =>
    have : (Part.writing (.char c)).after prior = .ending (charText c) (endingOf c) := by
      cases prior <;> rfl
    rw [this]
    cases endingOf c <;> exact charText_frontIsFree h
  | escape c => cases prior <;> unfold Part.writing <;> cases endingOf c <;> rfl
  | verbatim text => cases prior <;> exact frontIsFree_of_beginsAnew h
  | assertion text => cases prior <;> exact frontIsFree_of_beginsAnew h
  | set text =>
    have : ((Part.writing (.set text)).after prior).whole = text := by
      cases prior <;> exact setFragment_whole text
    rw [this]
    exact frontIsFree_of_beginsAnew h
  | single | star | globstar => cases prior <;> decide
  | group alternatives => cases prior <;> rfl

/-- A sequence is written so far with no quantifier at its front or at the front
of its last piece. -/
def Run.IsFree (run : Run) : Prop :=
  frontIsFree run.head = true ∧ frontIsFree run.last.whole = true

theorem Run.IsFree.extend {run : Run} (h : run.IsFree) {w : Writing}
    (hw : ∀ prior, frontIsFree (w.after prior).whole = true) : (run.extend w).IsFree := by
  have appended := frontIsFree_append h.1 h.2
  unfold Run.extend
  split
  · exact ⟨appended, hw .separator⟩
  · split
    · exact ⟨appended, hw .other⟩
    · rename_i s e hs he _
      refine ⟨h.1, ?_⟩
      simp only [Fragment.branch, hs, he]
      rfl
  · exact ⟨appended, hw .other⟩

theorem foldl_extend_isFree {parts : List Part} (h : partsFormed parts = true) {run : Run}
    (hrun : run.IsFree) : ((writings parts).foldl Run.extend run).IsFree := by
  induction parts generalizing run with
  | nil => exact hrun
  | cons part parts ih =>
    rw [partsFormed, Bool.and_eq_true] at h
    rw [writings, List.foldl_cons]
    exact ih h.2 (hrun.extend fun prior => writing_frontIsFree h.1 prior)

/-- No quantifier stands at the front of a sequence. -/
theorem sequence_frontIsFree {parts : List Part} (h : partsFormed parts = true)
    (prior : Ending) : frontIsFree (sequence prior (writings parts)).whole = true := by
  have start : (Run.start prior).IsFree := by cases prior <;> exact ⟨rfl, rfl⟩
  have free := foldl_extend_isFree h start
  exact frontIsFree_append free.1 free.2

end Glob

namespace Pattern

open AccessPolicy.Regex

/-- A backslash escapes the `$` at the end of the expression. -/
def escapesEnd (p : Pattern) : Bool := escapesNext p.written.dropLast

/-- Whether the `$` is escaped is told by what stands before it. -/
theorem escapesEnd_eq (p : Pattern) {body : List Char} (h : p.written = '^' :: (body ++ ['$'])) :
    p.escapesEnd = escapesNext body := by
  rw [escapesEnd, h, ← List.cons_append, List.dropLast_concat]
  rfl

/-- The expression of a pattern, without the anchors around it. -/
theorem exists_body (p : Pattern) : ∃ body, p.written = '^' :: (body ++ ['$']) ∧
    frontIsFree body = true ∧ p.escapesEnd = escapesNext body := by
  obtain ⟨parts, hparse⟩ := p.exists_parts
  have hwritten := p.written_of_parts hparse
  exact ⟨_, hwritten, Glob.sequence_frontIsFree (Glob.ofPattern?_formed hparse) .other,
    p.escapesEnd_eq hwritten⟩

/-- A pattern that is no choice matches from the first character of a name on. -/
theorem isMatch_iff_matches_front (p : Pattern) (hchoice : p.regex.isChoice = false)
    (name : String) :
    p.isMatch name = true ↔ ∃ j, Matches name.toList p.regex 0 j := by
  obtain ⟨body, hwritten, hfront, _⟩ := p.exists_body
  have read := p.readable
  rw [hwritten] at read
  rw [isMatch_iff]
  refine ⟨fun hfound => ?_, fun ⟨j, hj⟩ => ⟨0, j, Nat.zero_le _, hj⟩⟩
  obtain ⟨i, j, _, hm⟩ := hfound
  rcases read?_caret read (frontIsFree_append hfront rfl) with ⟨mid, hr⟩ | ⟨_, _, _, hr⟩
  · rw [hr] at hm ⊢
    rw [matches_fromStart hm] at hm
    exact ⟨j, hm⟩
  · rw [hr, isChoice_altAll] at hchoice
    exact absurd hchoice (by simp)

/-- A pattern that is no choice and does not escape its end matches a name from
the first character to the last. -/
theorem isMatch_iff_matches (p : Pattern) (hchoice : p.regex.isChoice = false)
    (hend : p.escapesEnd = false) (name : String) :
    p.isMatch name = true ↔ Matches name.toList p.regex 0 name.toList.length := by
  obtain ⟨body, hwritten, hfront, hescapes⟩ := p.exists_body
  have read := p.readable
  rw [hwritten] at read
  rw [isMatch_iff]
  refine ⟨fun hfound => ?_, fun hm => ⟨0, _, Nat.zero_le _, hm⟩⟩
  obtain ⟨i, j, _, hm⟩ := hfound
  rcases read?_anchored read hfront (hescapes.symm.trans hend) with
    ⟨mid, hr⟩ | ⟨_, _, _, hr⟩
  · -- both anchors stand in the one sequence, so the match that is found spans the name
    have hj : j = name.toList.length := by
      rw [hr, ← List.cons_append] at hm
      exact matches_toEnd hm
    rw [hr] at hm ⊢
    rwa [matches_fromStart hm, hj] at hm
  · rw [hr, isChoice_altAll] at hchoice
    exact absurd hchoice (by simp)

/-- A choice holds its first branch to the start of a name. -/
theorem isMatch_choice_front (p : Pattern) (hchoice : p.regex.isChoice = true) :
    ∃ first others, p.regex = altAll (catAll (.assert .textStart :: first) :: others) ∧
      ∀ name : String, p.isMatch name = true ↔
        (∃ j, MatchesAll name.toList first 0 j) ∨ ∃ r ∈ others, Found r name.toList := by
  obtain ⟨body, hwritten, hfront, _⟩ := p.exists_body
  have read := p.readable
  rw [hwritten] at read
  rcases read?_caret read (frontIsFree_append hfront rfl) with
    ⟨mid, hr⟩ | ⟨first, between, last, hr⟩
  · rw [hr, isChoice_fromStart] at hchoice
    exact absurd hchoice (by simp)
  · rw [List.cons_append] at hr
    refine ⟨first, between ++ [last], hr, fun name => ?_⟩
    rw [isMatch_iff, hr, found_altAll (by simp)]
    simp only [List.mem_cons, or_and_right, exists_or, exists_eq_left, found_fromStart]

/-- A choice that does not escape its end holds its first branch to the start of
a name and its last one to the end. The branches between them are held to
neither. -/
theorem isMatch_choice (p : Pattern) (hchoice : p.regex.isChoice = true)
    (hend : p.escapesEnd = false) : ∃ first between last,
      p.regex = altAll (catAll (.assert .textStart :: first) ::
        between ++ [catAll (last ++ [.assert .textEnd])]) ∧
      ∀ name : String, p.isMatch name = true ↔
        (∃ j, MatchesAll name.toList first 0 j) ∨ (∃ r ∈ between, Found r name.toList) ∨
          ∃ i, i ≤ name.toList.length ∧ MatchesAll name.toList last i name.toList.length := by
  obtain ⟨body, hwritten, hfront, hescapes⟩ := p.exists_body
  have read := p.readable
  rw [hwritten] at read
  rcases read?_anchored read hfront (hescapes.symm.trans hend) with
    ⟨mid, hr⟩ | ⟨first, between, last, hr⟩
  · rw [hr, isChoice_fromStart] at hchoice
    exact absurd hchoice (by simp)
  · refine ⟨first, between, last, hr, fun name => ?_⟩
    rw [isMatch_iff, hr, found_altAll (by simp)]
    simp only [List.cons_append, List.mem_cons, List.mem_append, List.not_mem_nil, or_false,
      or_and_right, exists_or, exists_eq_left, found_fromStart, found_toEnd]

/-! ## Bars and backslashes of the pattern itself -/

section

variable (p : Pattern) {parts ending : List Glob.Part}

/-- Only a backslash at the end of a pattern escapes the `$`. -/
theorem escapesEnd_iff (hparse : Glob.ofPattern? p.source = .ok (parts ++ ending))
    (hending : ending = [] ∨ ending = [.verbatim ['\\']])
    (hpaired : ∀ part ∈ parts, part = .assertion ['|'] ∨ part.IsPaired) :
    p.escapesEnd = true ↔ ending ≠ [] := by
  have formed := Glob.partsFormed_of_append (Glob.ofPattern?_formed hparse)
  have front : Paired true (Glob.sequence .other (Glob.writings parts)).whole :=
    Glob.sequence_paired formed hpaired (by nofun) .other
  rw [p.escapesEnd_eq (p.written_of_parts hparse)]
  rcases hending with rfl | rfl
  · rw [List.append_nil, front.escapesNext]
    simp
  · rw [Glob.sequence_verbatim, escapesNext_append front.escapesNext]
    simp [escapesNext, waits]

/-- Only a bar outside the groups of a pattern makes its expression a choice. -/
theorem bar_mem_of_isChoice (hparse : Glob.ofPattern? p.source = .ok (parts ++ ending))
    (hending : ending = [] ∨ ending = [.verbatim ['\\']])
    (hpaired : ∀ part ∈ parts, part = .assertion ['|'] ∨ part.IsPaired)
    (hchoice : p.regex.isChoice = true) : .assertion ['|'] ∈ parts := by
  by_contra hbar
  have formed := Glob.ofPattern?_formed hparse
  have front : Paired false (Glob.sequence .other (Glob.writings parts)).whole :=
    Glob.sequence_paired (Glob.partsFormed_of_append formed) hpaired (fun _ => hbar) .other
  have read := p.readable
  rw [p.written_of_parts hparse] at read
  have free := frontIsFree_append (w := ['$']) (Glob.sequence_frontIsFree formed .other) rfl
  have body : Paired false
      ((Glob.sequence .other (Glob.writings (parts ++ ending))).whole ++ ['$']) := by
    rcases hending with rfl | rfl
    · rw [List.append_nil]
      have dollar : Writes ['$'] [.assert .textEnd] := .atom fun _ => rfl
      exact front.append (.of_writes dollar (.inl rfl))
    · rw [Glob.sequence_verbatim, List.append_assoc]
      exact front.append (.escape .nil)
  exact absurd (hchoice.symm.trans (body.not_isChoice free read)) (by decide)

end

/-- Where the sets and the assertions of a pattern are read on their own and no set is left
open, what the pattern matches is told by two of its own signs: a bar outside its groups and a
backslash at its end. Without them it matches whole names only. Every other form lets go of
one end of the name or of both. -/
theorem isMatch_iff_by_form (p : Pattern) {parts ending : List Glob.Part}
    (hparse : Glob.ofPattern? p.source = .ok (parts ++ ending))
    (hending : ending = [] ∨ ending = [.verbatim ['\\']])
    (hpaired : ∀ part ∈ parts, part = .assertion ['|'] ∨ part.IsPaired) :
    (p.regex.isChoice = true → .assertion ['|'] ∈ parts) ∧
    (p.escapesEnd = true ↔ ending ≠ []) ∧
    match p.regex.isChoice, p.escapesEnd with
    | false, false => ∀ name : String, p.isMatch name = true ↔
        Matches name.toList p.regex 0 name.toList.length
    | false, true => ∀ name : String, p.isMatch name = true ↔
        ∃ j, Matches name.toList p.regex 0 j
    | true, false => ∃ first between last,
        p.regex = altAll (catAll (.assert .textStart :: first) ::
          between ++ [catAll (last ++ [.assert .textEnd])]) ∧
        ∀ name : String, p.isMatch name = true ↔
          (∃ j, MatchesAll name.toList first 0 j) ∨ (∃ r ∈ between, Found r name.toList) ∨
            ∃ i, i ≤ name.toList.length ∧ MatchesAll name.toList last i name.toList.length
    | true, true => ∃ first others,
        p.regex = altAll (catAll (.assert .textStart :: first) :: others) ∧
        ∀ name : String, p.isMatch name = true ↔
          (∃ j, MatchesAll name.toList first 0 j) ∨ ∃ r ∈ others, Found r name.toList := by
  refine ⟨p.bar_mem_of_isChoice hparse hending hpaired,
    p.escapesEnd_iff hparse hending hpaired, ?_⟩
  cases hchoice : p.regex.isChoice <;> cases hend : p.escapesEnd
  · exact p.isMatch_iff_matches hchoice hend
  · exact p.isMatch_iff_matches_front hchoice
  · exact p.isMatch_choice hchoice hend
  · exact p.isMatch_choice_front hchoice

/-- An escape that takes the characters behind it, a bar in a group, and a set: the pattern
matches whole names only. -/
theorem isMatch_incomplete_escape : ∃ p, compile? "(\\x2f|b)[c/]" = .ok p ∧
    Glob.ofPattern? p.source = .ok [.group [[.escape 'x', .char '2', .char 'f'], [.char 'b']],
      .set "[c/]".toList] ∧
    ∀ name : String, p.isMatch name = true ↔
      Matches name.toList p.regex 0 name.toList.length := by
  obtain ⟨p, hp⟩ : Compiles "(\\x2f|b)[c/]" := by decide +kernel
  have parse : Glob.ofPattern? p.source = .ok
      ([.group [[.escape 'x', .char '2', .char 'f'], [.char 'b']], .set "[c/]".toList] ++ []) := by
    rw [source_of_compile? hp]
    rfl
  have group : Glob.Part.IsPaired (.group [[.escape 'x', .char '2', .char 'f'], [.char 'b']]) := by
    refine .group ?_
    simp only [List.forall_mem_cons, List.not_mem_nil, false_implies, implies_true, and_true]
    exact ⟨⟨.escape, .char, .char⟩, .char⟩
  have read : read? "[c/]".toList =
      some (.set (.bracket false (.union (.single 'c') (.single '/')))) := by decide +kernel
  have set : Glob.Part.IsPaired (.set "[c/]".toList) := .set (.inl rfl) read
  obtain ⟨hbar, hends, hform⟩ := p.isMatch_iff_by_form parse (.inl rfl)
    (List.forall_mem_cons.2 ⟨.inr group, List.forall_mem_singleton.2 (.inr set)⟩)
  have single : p.regex.isChoice = false := Bool.eq_false_iff.2 fun h => by simpa using hbar h
  have held : p.escapesEnd = false := Bool.eq_false_iff.2 fun h => hends.1 h rfl
  rw [single, held] at hform
  exact ⟨p, hp, parse, hform⟩

/-- A bar outside groups: the first branch is not held to the end of a name, and
the name has a character that no branch takes. -/
theorem isMatch_bar : ∃ p, compile? "a|b" = .ok p ∧ p.isMatch "ax" = true ∧
    ¬ Matches "ax".toList p.regex 0 "ax".toList.length := by
  have translated : Glob.translate? "a|b" = .ok "^a|b$".toList := rfl
  have read : read? "^a|b$".toList = some (.alt (.cat (.assert .textStart) (.set (.single 'a')))
      (.cat (.set (.single 'b')) (.assert .textEnd))) := by decide +kernel
  obtain ⟨p, hp, _, hregex⟩ := exists_compile? translated read
  refine ⟨p, hp, ?_, ?_⟩
  · rw [isMatch, hregex]
    decide
  · rw [hregex, matches_alt, matches_cat, matches_cat]
    simp only [matches_textStart, matches_textEnd, matches_set]
    intro h
    rcases h with ⟨k, ⟨_, hk⟩, hj, _⟩ | ⟨k, ⟨hk, _⟩, hj, _⟩
    · rw [hk] at hj
      exact absurd hj (by decide)
    · rw [hk] at hj
      exact absurd hj (by decide)

/-- A backslash at the end: the name has characters behind the `$` that the
expression takes. -/
theorem isMatch_escaped_end : ∃ p, compile? "a\\" = .ok p ∧ p.isMatch "a$x" = true ∧
    ¬ Matches "a$x".toList p.regex 0 "a$x".toList.length := by
  have translated : Glob.translate? "a\\" = .ok "^a\\$".toList := rfl
  have read : read? "^a\\$".toList = some (.cat (.assert .textStart)
      (.cat (.set (.single 'a')) (.set (.single '$')))) := by decide +kernel
  obtain ⟨p, hp, _, hregex⟩ := exists_compile? translated read
  refine ⟨p, hp, ?_, ?_⟩
  · rw [isMatch, hregex]
    decide
  · rw [hregex, matches_cat]
    simp only [matches_cat, matches_textStart, matches_set]
    intro h
    obtain ⟨_, ⟨_, rfl⟩, k, ⟨hk, _⟩, hj, _⟩ := h
    rw [hk] at hj
    exact absurd hj (by decide)

end Pattern

end AccessPolicy
