import AccessPolicy.Proofs.Glob.Translation
import AccessPolicy.Proofs.Regex.Meet
import AccessPolicy.Proofs.Regex.Search

/-!
# Where a wildcard may take nothing

A star takes nothing only where its glob is written for an ending that is no separator.
So no name is matched up to a separator by a glob that ends with a star, if the
translation is right about each position that it calls no separator: every match that
a fragment spells elsewhere, or that one without a half for separators spells at all,
leads to a position that is clear (`Fragment.Clears`). A position is clear when it is not
behind a separator, and also when a word goes on there, which the end of a name never is.

This needs no piece of expression to mean what the glob takes it for. Each is to be
complete only: read on its own it is one part, and one of the kind that the glob passes
it on as (`Part.isComplete`). Then it clears (`writing_clears`), and so does every sequence
of such parts (`sequence_clears`).
-/

namespace AccessPolicy.Glob

open AccessPolicy.Regex (CharSet Readable Spells Writes spells_append writes_of_read?
  readable_nil spells_nil matches_set butSeparator)
open AccessPolicy.Text

/-! ## Clear positions -/

/-- The position is not behind a separator, or a word goes on there. -/
def IsClear (name : List Char) (i : Nat) : Prop :=
  endingAt name i = .other ∨ name[i]?.any isWordChar = true

theorem isClear_zero {name : List Char} : IsClear name 0 := .inl rfl

/-- The position behind a character that is no separator. -/
theorem isClear_succ {name : List Char} {i : Nat} {c : Char} (h : name[i]? = some c)
    (hc : c ≠ '/') : IsClear name (i + 1) := by
  have ending : endingOf c = .other := by simp [endingOf, hc]
  exact .inl ((endingAt_succ h).trans ending)

/-- A name that ends with a separator is not clear at its end. -/
theorem not_isClear_length {name : List Char} (h : name.getLast? = some '/') :
    ¬ IsClear name name.length := by
  obtain ⟨front, rfl⟩ := List.getLast?_eq_some_iff.1 h
  have last : (front ++ ['/'])[front.length]? = some '/' := by simp
  rintro (hother | hword)
  · rw [List.length_append, List.length_singleton, endingAt_succ last] at hother
    cases hother
  · rw [List.getElem?_eq_none (Nat.le_refl _)] at hword
    cases hword

/-- Positions between which a segment goes on, from a clear position. -/
theorem isClear_of_segment {name : List Char} {i j : Nat} (hi : IsClear name i)
    (h : AllBetween isSegmentChar name i j) : IsClear name j := by
  rcases Nat.eq_or_lt_of_le h.1 with rfl | hlt
  · exact hi
  · exact .inl (endingAt_segment h fun _ => hlt)

/-! ## Fragments -/

/-- At a position, the fragment is right about the positions it calls no separator. -/
structure Fragment.ClearsAt (f : Fragment) (name : List Char) (i : Nat) : Prop where
  elsewhere : ∀ j, SpellsSome name f.elsewhere i j → IsClear name j
  whole : f.atSeparator = none → ∀ j, Spells name f.whole i j → IsClear name j

/-- The fragment is read, and it is right wherever it may stand behind an ending. -/
structure Fragment.Clears (f : Fragment) (prior : Ending) : Prop where
  readable : f.IsReadable
  clears : ∀ name i, (prior = .other → IsClear name i) → f.ClearsAt name i

/-- Behind each ending the fragment that is written for it clears. -/
def Writing.Clears (w : Writing) : Prop := ∀ e, (w.after e).Clears e

theorem Fragment.ending_clears {written : List Char} {prior e : Ending}
    (hread : Readable written) (h : e = .other → ∀ name i j, (prior = .other → IsClear name i) →
      Spells name written i j → IsClear name j) : (Fragment.ending written e).Clears prior where
  readable := ending_readable hread e
  clears := by
    intro name i hi
    cases e with
    | separator => exact ⟨fun j hj => absurd hj spellsSome_none, nofun⟩
    | other =>
      exact ⟨fun j hj => h rfl name i j hi (spellsSome_some.1 hj),
        fun _ j hj => h rfl name i j hi hj⟩

/-- A text that clears, however it is called, and whatever stands before it. -/
theorem Writing.always_clears {f : Fragment} (h : ∀ prior, f.Clears prior) :
    (Writing.always f).Clears := by
  intro e
  cases e with
  | separator => exact h .separator
  | other => exact h .other

theorem alternation?_eq_none {branches : List (Option (List Char))} :
    alternation? branches = none ↔ ∀ b ∈ branches, b = none := by
  have missing : branches.filterMap id = [] ↔ ∀ b ∈ branches, b = none :=
    List.filterMap_eq_nil_iff
  rw [← missing, alternation?]
  obtain _ | ⟨first, _ | ⟨second, others⟩⟩ := branches.filterMap id <;> simp

theorem Fragment.join?_eq_none {head tail : Option (List Char)} (hhead : head ≠ none)
    (h : join? head tail = none) : tail = none := by
  obtain ⟨written, rfl⟩ := Option.ne_none_iff_exists'.1 hhead
  cases tail with
  | none => rfl
  | some _ => cases h

/-- A branch has no half for separators only where neither of the second pieces has
one. -/
theorem Fragment.atSeparator_of_branch {f : Fragment} {w : Writing}
    (hf : ∀ e, f.half e ≠ none)
    (h : (f.branch w.afterSeparator w.afterOther).atSeparator = none) (e : Ending) :
    (w.after e).atSeparator = none := by
  have both := alternation?_eq_none.1 h
  cases e with
  | separator => exact join?_eq_none (hf .separator) (both _ List.mem_cons_self)
  | other =>
    exact join?_eq_none (hf .other) (both _ (List.mem_cons_of_mem _ List.mem_cons_self))

/-- One piece behind another, written for both endings of the first. -/
theorem Fragment.branch_clearsAt {f : Fragment} (hf : f.IsReadable) {w : Writing}
    (hw : w.Clears) (hpresent : ∀ e, f.half e ≠ none)
    {name : List Char} {i : Nat} (hi : f.ClearsAt name i) :
    (f.branch w.afterSeparator w.afterOther).ClearsAt name i := by
  have readable : ∀ e, (w.after e).IsReadable := fun e => (hw e).readable
  -- behind the half for other endings, the second piece stands at a clear position
  have behind : ∀ e k, SpellsSome name (f.half e) i k → (w.after e).ClearsAt name k := by
    intro e k hk
    refine (hw e).clears name k fun he => ?_
    subst he
    exact hi.elsewhere k hk
  refine ⟨fun j hj => ?_, fun hnone j hj => ?_⟩
  · have half : SpellsSome name ((f.branch w.afterSeparator w.afterOther).half .other) i j := hj
    rw [half_branch] at half
    obtain ⟨e, k, hk, hj⟩ :=
      (branchHalf_spells hf (fun e => (readable e).half .other) name i j).1 half
    exact (behind e k hk).elsewhere j hj
  · obtain ⟨e, k, hk, hj⟩ := (branch_spells hf readable (hpresent .separator)).1 hj
    exact (behind e k hk).whole (atSeparator_of_branch hpresent hnone e) j hj

/-! ## Sequences -/

/-- The run is read, and its last piece clears wherever the text before it ends. -/
structure Run.Clears (run : Run) (prior : Ending) : Prop where
  head : Readable run.head
  last : run.last.IsReadable
  clears : ∀ name i k, (prior = .other → IsClear name i) → Spells name run.head i k →
    run.last.ClearsAt name k

theorem Run.clears_start (prior : Ending) : (Run.start prior).Clears prior := by
  have empty : (Fragment.ending [] prior).Clears prior := by
    refine Fragment.ending_clears readable_nil fun hprior name i j hi hj => ?_
    rw [← spells_nil.1 hj]
    exact hi hprior
  refine ⟨readable_nil, empty.readable, fun name i k hi hk => ?_⟩
  rw [← spells_nil.1 hk]
  exact empty.clears name i hi

/-- The last piece joins the text before it, and the next piece is written for an ending
that is no separator only where the last piece ends at clear positions. -/
theorem Run.Clears.append {run : Run} {prior : Ending} (h : run.Clears prior) {w : Writing}
    (hw : w.Clears) (e : Ending) (he : e = .other → run.last.atSeparator = none) :
    Run.Clears ⟨run.head ++ run.last.whole, w.after e⟩ prior where
  head := h.head.append h.last.whole
  last := (hw e).readable
  clears := by
    intro name i k hi hk
    rw [spells_append h.head h.last.whole] at hk
    obtain ⟨m, hm, hk⟩ := hk
    exact (hw e).clears name k fun hother =>
      (h.clears name i m hi hm).whole (he hother) k hk

/-- One more part behind a sequence. -/
theorem Run.Clears.extend {run : Run} {prior : Ending} (h : run.Clears prior) {w : Writing}
    (hw : w.Clears) : (run.extend w).Clears prior := by
  unfold Run.extend
  split
  · exact h.append hw .separator nofun
  · rename_i _ _ hsep hother
    split
    · -- written in one way, the part is as right as behind a separator
      rename_i same
      rw [← same]
      exact h.append hw .separator nofun
    · have readable : ∀ e, (w.after e).IsReadable := fun e => (hw e).readable
      have present : ∀ e, run.last.half e ≠ none := by
        intro e
        cases e <;> simp [Fragment.half, hsep, hother]
      refine ⟨h.head, Fragment.branch_readable h.last readable, fun name i k hi hk => ?_⟩
      exact Fragment.branch_clearsAt h.last hw present (h.clears name i k hi hk)
  · rename_i hsep
    exact h.append hw .other fun _ => hsep

theorem Run.Clears.toFragment {run : Run} {prior : Ending} (h : run.Clears prior) :
    run.toFragment.Clears prior := by
  refine ⟨toFragment_readable h.head h.last, fun name i hi => ⟨fun j hj => ?_, ?_⟩⟩
  · obtain ⟨k, hk, hj⟩ := (toFragment_half h.head h.last .other).1 hj
    exact (h.clears name i k hi hk).elsewhere j hj
  · intro hnone j hj
    obtain ⟨k, hk, hj⟩ := (toFragment_whole h.head h.last).1 hj
    exact (h.clears name i k hi hk).whole (Option.map_eq_none_iff.1 hnone) j hj

theorem foldl_extend_clears {ws : List Writing} (hws : ∀ w ∈ ws, w.Clears) {run : Run}
    {prior : Ending} (h : run.Clears prior) : (ws.foldl Run.extend run).Clears prior := by
  induction ws generalizing run with
  | nil => exact h
  | cons w ws ih =>
    rw [List.forall_mem_cons] at hws
    exact ih hws.2 (h.extend hws.1)

/-- A sequence of parts that clear clears. -/
theorem sequence_clears {ws : List Writing} (hws : ∀ w ∈ ws, w.Clears) (prior : Ending) :
    (sequence prior ws).Clears prior :=
  (foldl_extend_clears hws (Run.clears_start prior)).toFragment

/-! ## Groups -/

/-- A choice between pieces that clear clears. -/
theorem choice_clears {pieces : List Fragment} {prior : Ending} (hne : pieces ≠ [])
    (h : ∀ f ∈ pieces, f.Clears prior) : (choice pieces).Clears prior := by
  have readable : ∀ f ∈ pieces, f.IsReadable := fun f hf => (h f hf).readable
  refine ⟨choice_readable hne readable, fun name i hi => ⟨fun j hj => ?_, ?_⟩⟩
  · obtain ⟨f, hf, hj⟩ := (choice_half readable .other).1 hj
    exact ((h f hf).clears name i hi).elsewhere j hj
  · intro hnone j hj
    obtain ⟨f, hf, hj⟩ := (choice_whole hne readable).1 hj
    have missing : f.atSeparator = none :=
      alternation?_eq_none.1 hnone _ (List.mem_map_of_mem hf)
    exact ((h f hf).clears name i hi).whole missing j hj

/-! ## Parts -/

/-- One character, or the place where a word starts or ends. -/
def standsForOne : Regex → Bool
  | .set (.single _) | .assert .wordStart | .assert .wordEnd => true
  | _ => false

/-- A set that may still stand in a sequence. -/
def isShallowSet : Regex → Bool
  | .set s => s.depth < Regex.nestLimit
  | _ => false

def isAssertion : Regex → Bool
  | .assert _ => true
  | _ => false

mutual

/-- Whether every piece of expression that the part passes on is complete: read on its own
it is what the glob takes it for. What is taken verbatim never is: it is a backslash at
the end, or a set that does not close. -/
def Part.isComplete : Part → Bool
  | .escape c => (Regex.read? ['\\', c]).any standsForOne
  | .verbatim _ => false
  | .set text =>
    (text.head? == some '[' || text.head? == some '\\') && (Regex.read? text).any isShallowSet
  | .assertion text => (Regex.read? text).any isAssertion
  | .group alternatives => alternativesComplete alternatives
  | _ => true

/-- Whether all parts of a sequence are complete. -/
def partsComplete : List Part → Bool
  | [] => true
  | part :: parts => part.isComplete && partsComplete parts

/-- Whether all parts of several sequences are complete. -/
def alternativesComplete : List (List Part) → Bool
  | [] => true
  | parts :: alternatives => partsComplete parts && alternativesComplete alternatives

end

/-- A character of a set without the separator. -/
theorem isClear_of_set {written : List Char} {s : CharSet} (h : Writes written [.set s])
    (hs : s.contains '/' = false) {name : List Char} {i j : Nat} (hj : Spells name written i j) :
    IsClear name j := by
  obtain ⟨rfl, c, hc, hcontains⟩ := h.spells_set.1 hj
  refine isClear_succ hc ?_
  rintro rfl
  rw [hs] at hcontains
  cases hcontains

/-- A text that takes one character of a set, and is called no separator only when the set
has none. -/
theorem ending_set_clears {written : List Char} {s : CharSet} {prior e : Ending}
    (h : Writes written [.set s]) (hs : e = .other → s.contains '/' = false) :
    (Fragment.ending written e).Clears prior :=
  Fragment.ending_clears ⟨_, h⟩ fun he _ _ _ _ hj => isClear_of_set h (hs he) hj

/-- A text that takes one given character, called as that character ends. -/
theorem ending_char_clears {written : List Char} {c d : Char} {prior : Ending}
    (h : Writes written [.set (.single d)]) (hd : d = '/' → c = '/') :
    (Fragment.ending written (endingOf c)).Clears prior := by
  refine ending_set_clears h fun he => ?_
  have hc : c ≠ '/' := by
    rintro rfl
    cases he
  have hne : '/' ≠ d := fun heq => hc (hd heq.symm)
  simp [CharSet.contains, hne]

theorem charPart_clears {c : Char} (h : isLiteral c = true) : (Part.char c).writing.Clears :=
  Writing.always_clears fun _ => ending_char_clears (writes_charText h) id

/-- An assertion takes nothing, and is called no separator where the position is clear. -/
theorem ending_assertion_clears {written : List Char} {a : Regex.Assertion} {prior e : Ending}
    (h : Writes written [.assert a]) (ha : e = .other → ∀ name i,
      (prior = .other → IsClear name i) →
      a.holds (Regex.charBefore? name i) name[i]? = true → IsClear name i) :
    (Fragment.ending written e).Clears prior := by
  refine Fragment.ending_clears ⟨_, h⟩ fun he name i j hi hj => ?_
  rw [h.spells_one, Regex.matches_assert] at hj
  obtain ⟨rfl, _, hholds⟩ := hj
  exact ha he name i hi hholds

theorem assertionPart_clears {text : List Char}
    (h : (Regex.read? text).any isAssertion = true) :
    (Part.assertion text).writing.Clears := by
  obtain ⟨r, hread, hr⟩ := (Option.any_eq_true _ _).1 h
  obtain ⟨a, rfl⟩ : ∃ a, r = .assert a := by
    cases r with
    | assert a => exact ⟨a, rfl⟩
    | _ => cases hr
  have writes := writes_of_read? hread rfl
  intro e
  cases e with
  | separator =>
    show (Fragment.ending text .separator).Clears .separator
    exact ending_assertion_clears writes fun he => nomatch he
  | other =>
    show (Fragment.ending text .other).Clears .other
    exact ending_assertion_clears writes fun _ name i hi _ => hi rfl

/-- Where a word starts or ends, the position is clear. -/
theorem isClear_of_word {name : List Char} {i : Nat} {a : Regex.Assertion}
    (ha : a = .wordStart ∨ a = .wordEnd)
    (h : a.holds (Regex.charBefore? name i) name[i]? = true) : IsClear name i := by
  rcases ha with rfl | rfl
  · have after : (!(Regex.charBefore? name i).any isWordChar && name[i]?.any isWordChar) = true := h
    rw [Bool.and_eq_true] at after
    exact .inr after.2
  · have before : ((Regex.charBefore? name i).any isWordChar && !name[i]?.any isWordChar) = true := h
    rw [Bool.and_eq_true, Option.any_eq_true] at before
    obtain ⟨⟨c, hc, hword⟩, _⟩ := before
    cases i with
    | zero => cases hc
    | succ i =>
      refine isClear_succ hc ?_
      rintro rfl
      exact absurd hword (by decide)

theorem escapePart_clears {c : Char}
    (h : (Regex.read? ['\\', c]).any standsForOne = true) :
    (Part.escape c).writing.Clears := by
  obtain ⟨r, hread, hr⟩ := (Option.any_eq_true _ _).1 h
  refine Writing.always_clears fun prior => ?_
  match r, hr with
  | .set (.single d), _ =>
    refine ending_char_clears (writes_of_read? hread rfl) fun hd => ?_
    exact Regex.eq_of_read?_escape hread hd
  | .assert .wordStart, _ =>
    refine ending_assertion_clears (writes_of_read? hread rfl) fun _ name i _ => ?_
    exact isClear_of_word (.inl rfl)
  | .assert .wordEnd, _ =>
    refine ending_assertion_clears (writes_of_read? hread rfl) fun _ name i _ => ?_
    exact isClear_of_word (.inr rfl)

/-- The probe finds a separator exactly in a set that has one and leaves room for the
anchors. -/
theorem findsSeparator_iff {text : List Char} {s : CharSet} (h : Writes text [.set s]) :
    findsSeparator text = true ↔ s.depth < Regex.nestLimit ∧ s.contains '/' = true := by
  have depth : (Regex.catAll ([.assert .textStart] ++ [.set s] ++ [.assert .textEnd])).depth ≤
      Regex.nestLimit ↔ s.depth < Regex.nestLimit := by
    show max 1 (max s.depth 0 + 1) ≤ Regex.nestLimit ↔ _
    omega
  have readable := h.anchored.isSome_read?_iff.trans depth
  unfold findsSeparator
  split
  · rename_i r hread
    have limit := Regex.withinNestLimit_of_read? (Option.isSome_of_eq_some hread)
    obtain rfl := Option.some.inj (hread.symm.trans (h.anchored.read? limit))
    rw [Regex.isFound_iff, Regex.found_anchored, Regex.matchesAll_singleton, matches_set]
    simp [readable.1 (Option.isSome_of_eq_some hread)]
  · rename_i hread
    rw [hread] at readable
    simp only [Option.isSome_none, Bool.false_eq_true, false_iff] at readable ⊢
    exact fun hroom => readable hroom.1

/-- A set that has the separator, and its part without it. -/
theorem setSplit_clears {text : List Char} {s m : CharSet} {prior : Ending}
    (h : Writes text [.set s])
    (hm : Writes (['['] ++ text ++ butSeparator) [.set m.withoutSeparator]) :
    Fragment.Clears ⟨text, some ['/'], if (Regex.read? (['['] ++ text ++ butSeparator)).isSome then
      some (['['] ++ text ++ butSeparator) else none⟩ prior := by
  have without : m.withoutSeparator.contains '/' = false := by
    rw [CharSet.contains_withoutSeparator, bne_self_eq_false, Bool.and_false]
  refine ⟨⟨⟨_, h⟩, fun e => ?_⟩, fun name i _ => ⟨fun j hj => ?_, nofun⟩⟩
  · cases e with
    | separator => exact readableSome_some.2 ⟨_, writes_separator⟩
    | other =>
      show ReadableSome (if _ then _ else _)
      split
      · exact readableSome_some.2 ⟨_, hm⟩
      · exact readableSome_none
  · change SpellsSome name (if _ then _ else _) i j at hj
    split at hj
    · exact isClear_of_set hm without (spellsSome_some.1 hj)
    · exact absurd hj spellsSome_none

theorem setPart_clears {text : List Char}
    (hsign : text.head? = some '[' ∨ text.head? = some '\\')
    (h : (Regex.read? text).any isShallowSet = true) : (Part.set text).writing.Clears := by
  obtain ⟨r, hread, hr⟩ := (Option.any_eq_true _ _).1 h
  obtain ⟨s, rfl⟩ : ∃ s, r = .set s := by
    cases r with
    | set s => exact ⟨s, rfl⟩
    | _ => cases hr
  have writes := writes_of_read? hread rfl
  have room : s.depth < Regex.nestLimit := of_decide_eq_true hr
  refine Writing.always_clears fun prior => ?_
  rw [setFragment]
  split
  · obtain ⟨m, hm, _⟩ := Regex.exists_writes_meet hread hsign
    exact setSplit_clears writes hm
  · rename_i hfinds
    refine ending_set_clears writes fun _ => Bool.eq_false_iff.2 fun hsep => hfinds ?_
    exact (findsSeparator_iff writes).2 ⟨room, hsep⟩

theorem singlePart_clears : Part.single.writing.Clears :=
  Writing.always_clears fun _ => ending_set_clears writes_segmentOne fun _ => rfl

theorem starPart_clears : Part.star.writing.Clears := by
  intro e
  cases e with
  | separator =>
    show (Fragment.ending segmentSome .other).Clears .separator
    refine Fragment.ending_clears ⟨_, writes_segmentSome⟩ fun _ name i j _ hj => ?_
    obtain ⟨hall, hlt⟩ := spells_segmentSome.1 hj
    exact .inl (endingAt_segment hall fun _ => hlt)
  | other =>
    show (Fragment.ending segmentAny .other).Clears .other
    refine Fragment.ending_clears ⟨_, writes_segmentAny⟩ fun _ name i j hi hj => ?_
    exact isClear_of_segment (hi rfl) (spells_segmentAny.1 hj)

theorem globstarPart_clears : Part.globstar.writing.Clears := by
  intro e
  cases e with
  | separator =>
    refine ⟨globstarPart_means_separator.readable, fun name i _ => ⟨fun j hj => ?_, nofun⟩⟩
    exact .inl (spells_path_segment.1 (spellsSome_some.1 hj)).2
  | other =>
    refine ⟨globstarPart_means_other.readable, fun name i hi => ⟨fun j hj => ?_, nofun⟩⟩
    have optional := Regex.spells_optional readable_path_segment
    rcases (optional.2 name i j).1 (spellsSome_some.1 hj) with rfl | hj
    · exact hi rfl
    · exact .inl (spells_path_segment.1 hj).2

/-- A group clears when all parts of its alternatives do. -/
theorem groupPart_clears {alternatives : List (List Part)} (hne : alternatives ≠ [])
    (h : ∀ parts ∈ alternatives, ∀ w ∈ writings parts, w.Clears) :
    (Part.group alternatives).writing.Clears := by
  intro e
  rw [group_after]
  refine choice_clears (by simpa using hne) fun f hf => ?_
  obtain ⟨parts, hparts, rfl⟩ := List.mem_map.1 hf
  exact sequence_clears (h parts hparts) e

mutual

/-- A complete part clears. -/
theorem writing_clears : ∀ part : Part, part.isFormed = true → part.isComplete = true →
    part.writing.Clears
  | .char _, hf, _ => charPart_clears hf
  | .escape _, _, hc => escapePart_clears hc
  | .verbatim _, _, hc => nomatch hc
  | .set _, _, hc => by
    simp only [Part.isComplete, Bool.and_eq_true, Bool.or_eq_true, beq_iff_eq] at hc
    exact setPart_clears hc.1 hc.2
  | .assertion _, _, hc => assertionPart_clears hc
  | .single, _, _ => singlePart_clears
  | .star, _, _ => starPart_clears
  | .globstar, _, _ => globstarPart_clears
  | .group alternatives, hf, hc => by
    simp only [Part.isFormed, Bool.and_eq_true, Bool.not_eq_true', List.isEmpty_eq_false_iff]
      at hf
    rw [Part.isComplete] at hc
    exact groupPart_clears hf.1 (alternatives_clear alternatives hf.2 hc)

/-- All parts of a complete sequence clear. -/
theorem writings_clear : ∀ parts : List Part, partsFormed parts = true →
    partsComplete parts = true → ∀ w ∈ writings parts, w.Clears
  | [], _, _, _, hw => absurd hw List.not_mem_nil
  | part :: parts, hf, hc, w, hw => by
    simp only [partsFormed, partsComplete, Bool.and_eq_true] at hf hc
    rcases List.mem_cons.1 hw with heq | hw
    · exact heq ▸ writing_clears part hf.1 hc.1
    · exact writings_clear parts hf.2 hc.2 w hw

/-- All parts of complete alternatives clear. -/
theorem alternatives_clear : ∀ alternatives : List (List Part),
    alternativesFormed alternatives = true → alternativesComplete alternatives = true →
    ∀ parts ∈ alternatives, ∀ w ∈ writings parts, w.Clears
  | [], _, _, _, hparts => absurd hparts List.not_mem_nil
  | first :: alternatives, hf, hc, parts, hparts => by
    simp only [alternativesFormed, alternativesComplete, Bool.and_eq_true] at hf hc
    rcases List.mem_cons.1 hparts with heq | hparts
    · exact heq ▸ writings_clear first hf.1 hc.1
    · exact alternatives_clear alternatives hf.2 hc.2 parts hparts

end

/-! ## A star at the end -/

/-- Behind a star, whichever way it is written, no match ends with a separator. -/
theorem extend_star (run : Run) : (run.extend Part.star.writing).last.atSeparator = none := by
  unfold Run.extend
  split
  · rfl
  · split
    · rfl
    · cases hsep : run.last.atSeparator <;> cases hother : run.last.elsewhere <;>
        simp [Fragment.branch, Part.writing, Fragment.ending, Fragment.join?, alternation?]
  · rfl

/-- The expression of a complete sequence with a star at its end leads to clear positions
only. -/
theorem isClear_of_star {parts : List Part} (hf : partsFormed parts = true)
    (hc : partsComplete parts = true) (hlast : parts.getLast? = some .star) {name : List Char}
    {j : Nat} (hj : Spells name (sequence .other (writings parts)).whole 0 j) :
    IsClear name j := by
  have clears := (sequence_clears (writings_clear parts hf hc) .other).clears name 0
    fun _ => isClear_zero
  obtain ⟨front, rfl⟩ := List.getLast?_eq_some_iff.1 hlast
  have missing : (sequence .other (writings (front ++ [.star]))).atSeparator = none := by
    rw [writings_append, sequence, List.foldl_append]
    exact Option.map_eq_none_iff.2 (extend_star _)
  exact clears.whole missing j hj

end AccessPolicy.Glob
