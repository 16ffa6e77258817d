import AccessPolicy.Proofs.Glob.Language
import AccessPolicy.Proofs.Glob.Separator

/-!
# Sequences are split rightly

The translation keeps every piece of expression split by how its matches end. Behind each
part the two halves are put together anew, and they stay right: a sequence of parts that are
split rightly is split rightly, and so is a group (`sequence_splits`, `choice_splits`).

Characters and wildcards are split rightly as they are written. A set is split with the
engine: the expression of its half without the separator is the set itself, met with all
characters but the separator. That takes two levels more than the set, so a set that has the
separator is split rightly only if there is room for them (`setFragment_isSplit_iff`). With
such sets every sequence of characters, wildcards, sets and groups is split rightly
(`sequence_isSplit`).
-/

namespace AccessPolicy.Glob

open AccessPolicy.Regex (CharSet Spells Writes WritesLocal language butSeparator writes_of_read?)
open AccessPolicy.Text (byteLength isBlank trimChars)

/-! ## Sequences and groups -/

/-- Behind each ending the fragment that is written for it splits. -/
def Writing.Splits (w : Writing) : Prop := ∀ e, (w.after e).SplitsBehind e

/-- A part that is written in one way, and splits behind either ending. -/
theorem Writing.always_splits {f : Fragment} (h : ∀ e, f.SplitsBehind e) :
    (Writing.always f).Splits := by
  intro e
  cases e with
  | separator => exact h .separator
  | other => exact h .other

/-- A part that splits means what its fragments match. -/
theorem Writing.Splits.means {w : Writing} (h : w.Splits) :
    w.Means fun name i j => Spells name (w.after (endingAt name i)).whole i j := by
  intro e
  refine ⟨(h e).isLocal.readable, (h e).splitsAt, fun name i j hi => ?_⟩
  rw [hi]

theorem Run.Describes.foldl_extend {ws : List Writing} (hws : ∀ w ∈ ws, w.Splits) {run : Run}
    {prior : Ending} {D : Extent} (h : run.Describes prior D) :
    ∃ E, (ws.foldl Run.extend run).Describes prior E := by
  induction ws generalizing run D with
  | nil => exact ⟨D, h⟩
  | cons w ws ih =>
    rw [List.forall_mem_cons] at hws
    exact ih hws.2 (h.extend hws.1.means)

/-- A sequence of parts that split splits. -/
theorem sequence_splits {ws : List Writing} (hws : ∀ w ∈ ws, w.Splits) (prior : Ending) :
    (sequence prior ws).SplitsBehind prior := by
  obtain ⟨E, described⟩ := (Run.describes_start prior).foldl_extend hws
  exact ⟨composes_writesLocal.all_sequence (fun w hw e => (hws w hw e).isLocal) prior,
    described.toFragment.splits⟩

/-- A choice between pieces that split splits. -/
theorem choice_splits {pieces : List Fragment} {prior : Ending} (hne : pieces ≠ [])
    (h : ∀ f ∈ pieces, f.SplitsBehind prior) : (choice pieces).SplitsBehind prior := by
  have means : ∀ f ∈ pieces,
      Fragment.Means (id f) prior fun name => Spells name (Fragment.whole f) := by
    intro f hf
    exact ⟨(h f hf).isLocal.readable, (h f hf).splitsAt, fun _ _ _ _ => Iff.rfl⟩
  have chosen := choice_means hne means
  rw [List.map_id] at chosen
  exact ⟨composes_writesLocal.all_choice hne fun f hf => (h f hf).isLocal, chosen.splits⟩

/-! ## Characters and wildcards -/

theorem Writing.Means.splits {w : Writing} {D : Extent} (h : w.Means D)
    (hlocal : ∀ e, (w.after e).IsLocal) : w.Splits :=
  fun e => ⟨hlocal e, (h e).splits⟩

theorem charPart_splits {c : Char} (h : isLiteral c = true) : (Part.char c).writing.Splits := by
  have text : WritesLocal (charText c) := (writes_charText h).writesLocal rfl
  exact (charPart_means h).splits (Writing.all_ending text text _ _)

theorem escapePart_splits {c : Char} (h : Regex.Token.isEscapable c = true) :
    (Part.escape c).writing.Splits := by
  have text : WritesLocal ['\\', c] := (writes_escape h).writesLocal rfl
  exact (escapePart_means h).splits (Writing.all_ending text text _ _)

theorem local_segmentOne : WritesLocal segmentOne := writes_segmentOne.writesLocal rfl

theorem local_pathAny : WritesLocal pathAny := writes_pathAny.writesLocal rfl

theorem singlePart_splits : Part.single.writing.Splits :=
  singlePart_means.splits (Writing.all_ending local_segmentOne local_segmentOne _ _)

theorem starPart_splits : Part.star.writing.Splits :=
  starPart_means.splits (Writing.all_ending (writes_segmentSome.writesLocal rfl)
    (writes_segmentAny.writesLocal rfl) _ _)

theorem globstarPart_splits : Part.globstar.writing.Splits := by
  have separator : WritesLocal (pathAny ++ ['/']) :=
    local_pathAny.append (writes_separator.writesLocal rfl)
  have segment : WritesLocal (pathAny ++ segmentOne) := local_pathAny.append local_segmentOne
  refine globstarPart_means.splits fun e => ?_
  cases e with
  | separator =>
    refine ⟨writes_pathSome.writesLocal rfl, fun d written hw => ?_⟩
    cases d <;> cases hw
    · exact separator
    · exact segment
  | other =>
    refine ⟨local_pathAny, fun d written hw => ?_⟩
    cases d <;> cases hw
    · exact separator
    · exact segment.optional

/-! ## Sets -/

/-- A set has no separator, or it leaves two levels for meeting it with all other characters.
It may leave only one if the separator is all that it has. -/
def LeavesRoom (s : CharSet) : Prop :=
  s.contains '/' = true → s.depth + 2 ≤ Regex.nestLimit ∨
    s.depth < Regex.nestLimit ∧ ∀ c, s.contains c = true → c = '/'

/-- The half of a set without the separator is written only where there is room for it. -/
theorem isSome_read?_withoutSeparator {written : List Char} {s : CharSet}
    (h : Writes written [.set s.withoutSeparator]) :
    (Regex.read? written).isSome = true ↔ s.depth + 2 ≤ Regex.nestLimit := by
  rw [h.isSome_read?_iff]
  show s.withoutSeparator.depth ≤ 250 ↔ s.depth + 2 ≤ 250
  rw [CharSet.depth_withoutSeparator]
  omega

theorem endingOf_eq_separator {c : Char} : endingOf c = .separator ↔ c = '/' := by
  simp [endingOf]

theorem endingOf_eq_other {c : Char} : endingOf c = .other ↔ c ≠ '/' := by
  simp [endingOf]

/-- The characters of a set by which its matches end in one way. -/
theorem spells_set_ending {written : List Char} {s : CharSet} (h : Writes written [.set s])
    {name : List Char} {i j : Nat} (e : Ending) :
    Spells name written i j ∧ endingAt name j = e ↔
      j = i + 1 ∧ ∃ c, name[i]? = some c ∧ s.contains c = true ∧ endingOf c = e := by
  rw [h.spells_set]
  constructor
  · rintro ⟨⟨rfl, c, hc, hs⟩, he⟩
    exact ⟨rfl, c, hc, hs, (endingAt_succ hc).symm.trans he⟩
  · rintro ⟨rfl, c, hc, hs, he⟩
    exact ⟨⟨rfl, c, hc, hs⟩, (endingAt_succ hc).trans he⟩

/-- A set without the separator, written whole. -/
theorem ending_set_splits {text : List Char} {s : CharSet} (h : Writes text [.set s])
    (hsep : s.contains '/' = false) (prior : Ending) :
    (Fragment.ending text .other).SplitsBehind prior := by
  have means : (Fragment.ending text .other).Means prior fun name => Spells name text := by
    refine Fragment.ending_means ⟨_, h⟩ (fun _ _ _ _ => Iff.rfl) fun name i j _ hj => ?_
    obtain ⟨rfl, c, hc, hs⟩ := h.spells_set.1 hj
    refine (endingAt_succ hc).trans (endingOf_eq_other.2 ?_)
    rintro rfl
    rw [hsep] at hs
    cases hs
  exact ⟨Fragment.all_ending (h.writesLocal rfl) _, means.splits⟩

/-- A set with the separator: the separator, and the rest of the set if there is a rest and
room for it. -/
theorem setHalves_splits {text rest : List Char} {s : CharSet} (h : Writes text [.set s])
    (hrest : Writes rest [.set s.withoutSeparator]) (hsep : s.contains '/' = true)
    (hroom : LeavesRoom s) (prior : Ending) : Fragment.SplitsBehind
      ⟨text, some ['/'], if (Regex.read? rest).isSome then some rest else none⟩ prior := by
  refine ⟨⟨h.writesLocal rfl, fun e written hw => ?_⟩, fun name i _ e j => ?_⟩
  · cases e with
    | separator =>
      cases hw
      exact writes_separator.writesLocal rfl
    | other =>
      obtain ⟨_, hw⟩ := Option.ite_none_right_eq_some.1 hw
      cases hw
      exact hrest.writesLocal rfl
  · show _ ↔ Spells name text i j ∧ endingAt name j = e
    rw [spells_set_ending h]
    cases e with
    | separator =>
      show SpellsSome name (some ['/']) i j ↔ _
      rw [spellsSome_some, writes_separator.spells_set]
      simp only [CharSet.contains, beq_iff_eq, endingOf_eq_separator]
      refine and_congr_right fun _ => exists_congr fun c => and_congr_right fun _ => ?_
      exact ⟨fun hc => ⟨hc ▸ hsep, hc⟩, fun hc => hc.2⟩
    | other =>
      show SpellsSome name (if _ then _ else _) i j ↔ _
      simp only [endingOf_eq_other]
      split
      · rw [spellsSome_some, hrest.spells_set]
        simp only [CharSet.contains_withoutSeparator, Bool.and_eq_true, bne_iff_ne]
      · -- there is no room, and so nothing but the separator
        rename_i hnone
        rw [isSome_read?_withoutSeparator hrest] at hnone
        have only := ((hroom hsep).resolve_left hnone).2
        simp only [spellsSome_none, false_iff]
        rintro ⟨_, c, _, hs, hne⟩
        exact hne (only c hs)

/-- A set that is written with a bracket or a backslash is split rightly if it leaves room. -/
theorem setFragment_splits {text : List Char} {s : CharSet}
    (hread : Regex.read? text = some (.set s))
    (hsign : text.head? = some '[' ∨ text.head? = some '\\') (hroom : LeavesRoom s)
    (prior : Ending) : (setFragment text).SplitsBehind prior := by
  have writes := writes_of_read? hread rfl
  rw [setFragment]
  split
  · rename_i hfinds
    obtain ⟨_, hsep⟩ := (findsSeparator_iff writes).1 hfinds
    have hrest := Regex.writes_withoutSeparator hread hsign hsep
    exact setHalves_splits writes hrest hsep hroom prior
  · rename_i hfinds
    refine ending_set_splits writes (Bool.eq_false_iff.2 fun hsep => hfinds ?_) prior
    have room : s.depth < Regex.nestLimit := by
      rcases hroom hsep with hroom | hroom
      · omega
      · exact hroom.1
    exact (findsSeparator_iff writes).2 ⟨room, hsep⟩

/-- With the separator as its only half a fragment has no other text. -/
theorem eq_separator_of_mem_halves {text : List Char}
    (h : text ∈ languageOf (some ['/']) ∪ languageOf none) : text = ['/'] := by
  rcases h with ⟨_, hsome, htext⟩ | ⟨_, hnone, _⟩
  · cases hsome
    obtain ⟨c, rfl, hc⟩ := writes_separator.mem_language_set.1 htext
    exact congrArg ([·]) (beq_iff_eq.1 hc)
  · cases hnone

/-- A set is split rightly only if it leaves room. -/
theorem leavesRoom_of_isSplit {text : List Char} {s : CharSet} {prior : Ending}
    (hread : Regex.read? text = some (.set s))
    (hsign : text.head? = some '[' ∨ text.head? = some '\\')
    (h : (setFragment text).IsSplit prior) : LeavesRoom s := by
  intro hsep
  have writes := writes_of_read? hread rfl
  have single : ∀ c, s.contains c = true → [c] ∈ language text := fun c hc =>
    writes.mem_language_set.2 ⟨c, rfl, hc⟩
  by_cases hfinds : findsSeparator text = true
  · obtain ⟨hdepth, _⟩ := (findsSeparator_iff writes).1 hfinds
    have hrest := Regex.writes_withoutSeparator hread hsign hsep
    by_cases hsome : (Regex.read? (['['] ++ text ++ butSeparator)).isSome = true
    · exact .inl ((isSome_read?_withoutSeparator hrest).1 hsome)
    · -- without its other half, the fragment has no text but the separator
      refine .inr ⟨hdepth, fun c hc => ?_⟩
      have written : setFragment text = ⟨text, some ['/'],
          if (Regex.read? (['['] ++ text ++ butSeparator)).isSome then
            some (['['] ++ text ++ butSeparator) else none⟩ := if_pos hfinds
      rw [written, if_neg hsome] at h
      have half : [c] ∈ languageOf (some ['/']) ∪ languageOf none := h.whole ▸ single c hc
      exact (List.cons.inj (eq_separator_of_mem_halves half)).1
  · -- the whole set is called elsewhere, and with it the separator
    have written : setFragment text = .ending text .other := if_neg hfinds
    rw [written] at h
    exact absurd rfl (h.elsewhere ['/'] ⟨text, rfl, single '/' hsep⟩).1

/-- A set is split rightly exactly if it leaves room. -/
theorem setFragment_isSplit_iff {text : List Char} {s : CharSet}
    (hread : Regex.read? text = some (.set s))
    (hsign : text.head? = some '[' ∨ text.head? = some '\\') (prior : Ending) :
    (setFragment text).IsSplit prior ↔ LeavesRoom s :=
  ⟨leavesRoom_of_isSplit hread hsign,
    fun hroom => (setFragment_splits hread hsign hroom prior).isSplit⟩

/-! ## Parts -/

mutual

/-- The part is made of characters, wildcards, groups and sets. A set begins with a bracket or
a backslash, is read on its own as one set, and leaves room. -/
def Part.CanSplit : Part → Prop
  | .char _ | .single | .star | .globstar => True
  | .escape c => Regex.Token.isEscapable c = true
  | .set text => (text.head? = some '[' ∨ text.head? = some '\\') ∧
      ∃ s, Regex.read? text = some (.set s) ∧ LeavesRoom s
  | .verbatim _ | .assertion _ => False
  | .group alternatives => AlternativesCanSplit alternatives

/-- All parts of a sequence are such parts. -/
def PartsCanSplit : List Part → Prop
  | [] => True
  | part :: parts => part.CanSplit ∧ PartsCanSplit parts

/-- All parts of several sequences are such parts. -/
def AlternativesCanSplit : List (List Part) → Prop
  | [] => True
  | parts :: alternatives => PartsCanSplit parts ∧ AlternativesCanSplit alternatives

end

theorem setPart_splits {text : List Char} (h : (Part.set text).CanSplit) :
    (Part.set text).writing.Splits := by
  obtain ⟨hsign, s, hread, hroom⟩ := h
  exact Writing.always_splits (setFragment_splits hread hsign hroom)

/-- A group splits when all parts of its alternatives do. -/
theorem groupPart_splits {alternatives : List (List Part)} (hne : alternatives ≠ [])
    (h : ∀ parts ∈ alternatives, ∀ w ∈ writings parts, w.Splits) :
    (Part.group alternatives).writing.Splits := by
  intro e
  rw [group_after]
  refine choice_splits (by simpa using hne) fun f hf => ?_
  obtain ⟨parts, hparts, rfl⟩ := List.mem_map.1 hf
  exact sequence_splits (h parts hparts) e

mutual

/-- A part that can be split is written so. -/
theorem writing_splits : ∀ part : Part, part.isFormed = true → part.CanSplit →
    part.writing.Splits
  | .char _, hf, _ => charPart_splits hf
  | .escape _, _, hs => escapePart_splits hs
  | .set _, _, hs => setPart_splits hs
  | .single, _, _ => singlePart_splits
  | .star, _, _ => starPart_splits
  | .globstar, _, _ => globstarPart_splits
  | .group alternatives, hf, hs => by
    simp only [Part.isFormed, Bool.and_eq_true, Bool.not_eq_true', List.isEmpty_eq_false_iff]
      at hf
    rw [Part.CanSplit] at hs
    exact groupPart_splits hf.1 (alternatives_split alternatives hf.2 hs)

/-- All parts of a sequence that can be split are written so. -/
theorem writings_split : ∀ parts : List Part, partsFormed parts = true → PartsCanSplit parts →
    ∀ w ∈ writings parts, w.Splits
  | [], _, _, _, hw => absurd hw List.not_mem_nil
  | part :: parts, hf, hs, w, hw => by
    simp only [partsFormed, PartsCanSplit, Bool.and_eq_true] at hf hs
    rcases List.mem_cons.1 hw with heq | hw
    · exact heq ▸ writing_splits part hf.1 hs.1
    · exact writings_split parts hf.2 hs.2 w hw

/-- All parts of alternatives that can be split are written so. -/
theorem alternatives_split : ∀ alternatives : List (List Part),
    alternativesFormed alternatives = true → AlternativesCanSplit alternatives →
    ∀ parts ∈ alternatives, ∀ w ∈ writings parts, w.Splits
  | [], _, _, _, hparts => absurd hparts List.not_mem_nil
  | first :: alternatives, hf, hs, parts, hparts => by
    simp only [alternativesFormed, AlternativesCanSplit, Bool.and_eq_true] at hf hs
    rcases List.mem_cons.1 hparts with heq | hparts
    · exact heq ▸ writings_split first hf.1 hs.1
    · exact alternatives_split alternatives hf.2 hs.2 parts hparts

end

/-- The fragment of a sequence of characters, wildcards, groups and sets is split by how its
texts end. -/
theorem sequence_isSplit {parts : List Part} (hf : partsFormed parts = true)
    (hs : PartsCanSplit parts) (prior : Ending) :
    (sequence prior (writings parts)).IsSplit prior :=
  (sequence_splits (writings_split parts hf hs) prior).isSplit

/-- A group that may end with a separator or not, by two sets, and a wildcard behind it. -/
theorem sequence_isSplit_behind_sets :
    partsFormed [.group [[.set "[a/]".toList], [.set "\\W".toList], []], .globstar] = true ∧
      PartsCanSplit [.group [[.set "[a/]".toList], [.set "\\W".toList], []], .globstar] ∧
      (sequence .separator (writings
        [.group [[.set "[a/]".toList], [.set "\\W".toList], []], .globstar])).IsSplit
          .separator := by
  have formed : partsFormed
      [.group [[.set "[a/]".toList], [.set "\\W".toList], []], .globstar] = true := by
    decide
  have bracket : (Part.set "[a/]".toList).CanSplit :=
    ⟨.inl rfl, .bracket false (.union (.single 'a') (.single '/')), by decide +kernel,
      fun _ => .inl (by decide)⟩
  have escape : (Part.set "\\W".toList).CanSplit :=
    ⟨.inr rfl, .property true .word, by decide +kernel, fun _ => .inl (by decide)⟩
  have canSplit : PartsCanSplit
      [.group [[.set "[a/]".toList], [.set "\\W".toList], []], .globstar] :=
    ⟨⟨⟨bracket, trivial⟩, ⟨escape, trivial⟩, trivial, trivial⟩, trivial, trivial⟩
  exact ⟨formed, canSplit, sequence_isSplit formed canSplit .separator⟩

/-- A sequence of one set is written as the set. -/
theorem sequence_set (prior : Ending) (text : List Char) :
    sequence prior (writings [.set text]) = setFragment text := by
  cases prior <;> simp [writings, Part.writing, sequence, Run.start, Run.extend, Run.toFragment,
    Fragment.ending, Fragment.prepend, Writing.always]

/-- The set of a letter and the separator, in so many brackets. -/
def nestedSet : Nat → CharSet
  | 0 => .union (.single 'a') (.single '/')
  | depth + 1 => .bracket false (nestedSet depth)

/-- A set in so many brackets that there is room for the anchors around it and for no more. -/
def deepSet : List Char := List.replicate 248 '[' ++ ['a', '/'] ++ List.replicate 248 ']'

/-- Sets that are not split rightly: one that leaves no room, so that neither half has its
letter, and a text that the glob takes for one set and the engine for two, since there `A-[` is
a range. A text of the second ends with a separator and is called otherwise. -/
theorem sequence_not_isSplit :
    (ofPattern? (String.ofList deepSet) = .ok [.set deepSet] ∧
      (Regex.read? deepSet).isSome = true ∧
      ['a'] ∈ language (sequence .other (writings [.set deepSet])).whole ∧
      ['a'] ∉ languageOf (sequence .other (writings [.set deepSet])).atSeparator ∪
        languageOf (sequence .other (writings [.set deepSet])).elsewhere) ∧
    ofPattern? "[A-[][]/]" = .ok [.set "[A-[][]/]".toList] ∧
      (Regex.read? "[A-[][]/]".toList).isSome = true ∧
      ['A', '/'] ∈ languageOf (sequence .other (writings [.set "[A-[][]/]".toList])).elsewhere := by
  constructor
  · have parsed : ofPattern? (String.ofList deepSet) = .ok [.set deepSet] := by
      have cut : tokens (byteLength (deepSet.takeWhile isBlank)) (trimChars deepSet) =
          [.set deepSet] := by decide +kernel
      have some : (trimChars deepSet).isEmpty = false := by decide +kernel
      rw [ofPattern?, String.toList_ofList]
      simp only [cut, some]
      rfl
    have read : Regex.read? deepSet = some (.set (nestedSet 248)) := by decide +kernel
    have written : setFragment deepSet = ⟨deepSet, some ['/'], none⟩ := by decide +kernel
    rw [sequence_set, written]
    have letter : (nestedSet 248).contains 'a' = true := by decide +kernel
    refine ⟨parsed, Option.isSome_of_eq_some read,
      (Regex.mem_language_of_read? read).2 (.set rfl letter), ?_⟩
    intro half
    exact absurd (eq_separator_of_mem_halves half) (by decide)
  · have read : Regex.read? "[A-[][]/]".toList = some (.cat
        (.set (.bracket false (.range 'A' '[')))
        (.set (.bracket false (.union (.single ']') (.single '/'))))) := by decide +kernel
    have written : setFragment "[A-[][]/]".toList = .ending "[A-[][]/]".toList .other := by
      decide +kernel
    rw [sequence_set, written]
    exact ⟨rfl, Option.isSome_of_eq_some read, _, rfl,
      (Regex.mem_language_of_read? read).2 (.cat (.set rfl rfl) (.set rfl rfl))⟩

end AccessPolicy.Glob
