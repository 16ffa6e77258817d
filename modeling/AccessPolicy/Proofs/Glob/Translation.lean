import AccessPolicy.Proofs.Glob.Formed
import AccessPolicy.Proofs.Glob.Fragment

/-!
# Plain globs are translated faithfully

The expression that is written for a plain part matches exactly what the part
covers, behind either ending (`writing_means`), and so does the expression of a
sequence (`sequence_means`). The proof goes along the parts: the texts of
characters and wildcards are read back one by one, and groups and sequences
keep what their pieces have.
-/

namespace AccessPolicy.Glob

open AccessPolicy.Regex (CharSet Cuts Writes Readable Spells Matches matches_set matches_plus tokens?
  tokens?_of_readOutside tokens?_of_readInSet spells_append)

/-! ## The texts of wildcards -/

/-- The set that takes a character within a segment. -/
def segmentSet : CharSet := .bracket true (.union (.single '/') (.single '\x00'))

/-- The set that takes a character of a path. -/
def pathSet : CharSet := .bracket true (.single '\x00')

theorem contains_segmentSet (c : Char) : segmentSet.contains c = isSegmentChar c := by
  simp [segmentSet, CharSet.contains, isSegmentChar, bne]

theorem contains_pathSet (c : Char) : pathSet.contains c = isPathChar c := by
  simp [pathSet, CharSet.contains, isPathChar, bne]

theorem writes_segmentOne : Writes segmentOne [.set segmentSet] := by
  have cuts : Cuts segmentOne
      [.setOpen true, .setMember (.single '/'), .setMember (.single '\x00'), .setClose] := by
    intro rest
    have opening : Regex.Token.readOutside '[' ("^/\\x00]".toList ++ rest) =
        some ([.setOpen true], 1, '/' :: ("\\x00]".toList ++ rest)) := rfl
    have slash : Regex.Token.readInSet 1 ('/' :: ("\\x00]".toList ++ rest)) =
        some ([.setMember (.single '/')], 1, '\\' :: ("x00]".toList ++ rest)) := rfl
    have nul : Regex.Token.readInSet 1 ('\\' :: ("x00]".toList ++ rest)) =
        some ([.setMember (.single '\x00')], 1, ']' :: rest) := rfl
    have closing : Regex.Token.readInSet 1 (']' :: rest) = some ([.setClose], 0, rest) := rfl
    show tokens? 0 ('[' :: ("^/\\x00]".toList ++ rest)) = _
    rw [tokens?_of_readOutside opening, tokens?_of_readInSet slash, tokens?_of_readInSet nul,
      tokens?_of_readInSet closing]
    cases tokens? 0 rest <;> rfl
  refine ⟨_, cuts, fun r hr => ⟨false, ?_⟩⟩
  simp [Regex.Reader.run, Regex.Reader.step, Regex.Reader.closeSet, Regex.Reader.push,
    Regex.Branches.push, Regex.OpenSet.push, Regex.OpenSet.toCharSet, Regex.OpenSet.body,
    CharSet.unionAll, segmentSet, hr]

theorem writes_pathOne : Writes "[^\\x00]".toList [.set pathSet] := by
  have cuts : Cuts "[^\\x00]".toList
      [.setOpen true, .setMember (.single '\x00'), .setClose] := by
    intro rest
    have opening : Regex.Token.readOutside '[' ("^\\x00]".toList ++ rest) =
        some ([.setOpen true], 1, '\\' :: ("x00]".toList ++ rest)) := rfl
    have nul : Regex.Token.readInSet 1 ('\\' :: ("x00]".toList ++ rest)) =
        some ([.setMember (.single '\x00')], 1, ']' :: rest) := rfl
    have closing : Regex.Token.readInSet 1 (']' :: rest) = some ([.setClose], 0, rest) := rfl
    show tokens? 0 ('[' :: ("^\\x00]".toList ++ rest)) = _
    rw [tokens?_of_readOutside opening, tokens?_of_readInSet nul, tokens?_of_readInSet closing]
    cases tokens? 0 rest <;> rfl
  refine ⟨_, cuts, fun r hr => ⟨false, ?_⟩⟩
  simp [Regex.Reader.run, Regex.Reader.step, Regex.Reader.closeSet, Regex.Reader.push,
    Regex.Branches.push, Regex.OpenSet.push, Regex.OpenSet.toCharSet, Regex.OpenSet.body,
    CharSet.unionAll, pathSet, hr]

theorem writes_segmentAny : Writes segmentAny [.star (.set segmentSet)] :=
  writes_segmentOne.star

theorem writes_segmentSome : Writes segmentSome [.plus (.set segmentSet)] :=
  writes_segmentOne.plus

theorem writes_pathAny : Writes pathAny [.star (.set pathSet)] :=
  writes_pathOne.star

theorem writes_pathSome : Writes pathSome [.plus (.set pathSet)] :=
  writes_pathOne.plus

/-! ## What the texts match -/

theorem matches_star_set {name : List Char} {s : CharSet} {i j : Nat} :
    Matches name (.star (.set s)) i j ↔ AllBetween s.contains name i j := by
  refine ⟨?_, ?_⟩
  · intro h
    generalize hr : Regex.star (.set s) = r at h
    induction h with
    | starNil => exact .refl _ _
    | starCons hfirst _ _ ih =>
      cases hr
      obtain ⟨rfl, hc⟩ := matches_set.1 hfirst
      exact allBetween_head.2 (.inr ⟨hc, ih rfl⟩)
    | _ => cases hr
  · intro h
    obtain ⟨n, hn⟩ : ∃ n, j = i + n := ⟨j - i, by have := h.1; omega⟩
    induction n generalizing i with
    | zero =>
      obtain rfl : j = i := hn
      exact .starNil
    | succ n ih =>
      rcases allBetween_head.1 h with rfl | ⟨hc, hrest⟩
      · omega
      · exact .starCons (matches_set.2 ⟨rfl, hc⟩) (ih hrest (by omega))

theorem matches_plus_set {name : List Char} {s : CharSet} {i j : Nat} :
    Matches name (.plus (.set s)) i j ↔ AllBetween s.contains name i j ∧ i < j := by
  rw [matches_plus]
  refine ⟨fun h => ?_, fun h => ?_⟩
  · obtain ⟨_, hfirst, hrest⟩ := h
    obtain ⟨rfl, hc⟩ := matches_set.1 hfirst
    have hall := matches_star_set.1 hrest
    exact ⟨allBetween_head.2 (.inr ⟨hc, hall⟩), hall.1⟩
  · obtain ⟨hall, hlt⟩ := h
    rcases allBetween_head.1 hall with rfl | ⟨hc, hrest⟩
    · omega
    · exact ⟨i + 1, matches_set.2 ⟨rfl, hc⟩, matches_star_set.2 hrest⟩

theorem contains_segmentSet_eq : segmentSet.contains = isSegmentChar :=
  funext contains_segmentSet

theorem contains_pathSet_eq : pathSet.contains = isPathChar :=
  funext contains_pathSet

theorem spells_segmentOne {name : List Char} {i j : Nat} :
    Spells name segmentOne i j ↔
      j = i + 1 ∧ ∃ c, name[i]? = some c ∧ isSegmentChar c = true := by
  rw [writes_segmentOne.spells_set, contains_segmentSet_eq]

theorem spells_segmentAny {name : List Char} {i j : Nat} :
    Spells name segmentAny i j ↔ AllBetween isSegmentChar name i j := by
  rw [writes_segmentAny.spells_one, matches_star_set, contains_segmentSet_eq]

theorem spells_segmentSome {name : List Char} {i j : Nat} :
    Spells name segmentSome i j ↔ AllBetween isSegmentChar name i j ∧ i < j := by
  rw [writes_segmentSome.spells_one, matches_plus_set, contains_segmentSet_eq]

theorem spells_pathAny {name : List Char} {i j : Nat} :
    Spells name pathAny i j ↔ AllBetween isPathChar name i j := by
  rw [writes_pathAny.spells_one, matches_star_set, contains_pathSet_eq]

theorem spells_pathSome {name : List Char} {i j : Nat} :
    Spells name pathSome i j ↔ AllBetween isPathChar name i j ∧ i < j := by
  rw [writes_pathSome.spells_one, matches_plus_set, contains_pathSet_eq]

/-! ## The texts of characters -/

theorem writes_charText {c : Char} (h : isLiteral c = true) :
    Writes (charText c) [.set (.single c)] := by
  unfold charText
  split
  · rename_i hc
    refine Writes.atom fun rest => ?_
    simp only [Bool.or_eq_true, beq_iff_eq] at hc
    rcases hc with (rfl | rfl) | rfl <;> rfl
  · rename_i hc
    refine Writes.atom fun rest => ?_
    simp only [isLiteral, Bool.and_eq_true, bne_iff_ne] at h
    simp only [Bool.or_eq_true, beq_iff_eq, not_or] at hc
    unfold Regex.Token.readOutside
    split <;> simp_all

theorem writes_separator : Writes ['/'] [.set (.single '/')] :=
  writes_charText (c := '/') rfl

theorem writes_escape {c : Char} (h : Regex.Token.isEscapable c = true) :
    Writes ['\\', c] [.set (.single c)] := by
  refine Writes.atom fun rest => ?_
  have escape : Regex.Token.readEscape (c :: rest) = some (.char c, rest) := by
    unfold Regex.Token.readEscape
    split
    · cases ‹c :: rest = []›
    · split <;> simp_all +decide
  show (Regex.Token.readEscape (c :: rest)).map _ = _
  rw [escape]
  rfl

/-! ## Parts -/

theorem endingOf_segmentChar {c : Char} (h : isSegmentChar c = true) :
    endingOf c = .other := by
  simp only [isSegmentChar, Bool.and_eq_true, bne_iff_ne] at h
  simp [endingOf, h.1]

/-- A stretch within a segment leaves an ending that is no separator, unless it
is empty behind one. -/
theorem endingAt_segment {name : List Char} {i j : Nat}
    (h : AllBetween isSegmentChar name i j) (hi : endingAt name i = .separator → i < j) :
    endingAt name j = .other := by
  rcases Nat.eq_or_lt_of_le h.1 with heq | hlt
  · subst heq
    exact Ending.ne_separator.1 fun hsep => Nat.lt_irrefl i (hi hsep)
  · obtain ⟨k, c, rfl, _, hc, hseg⟩ := (allBetween_last hlt).1 h
    rw [endingAt_succ hc]
    exact endingOf_segmentChar hseg

/-- A text that takes one given character. -/
theorem charWriting_means {written : List Char} {c : Char} {D : Extent}
    (h : Writes written [.set (.single c)])
    (hD : ∀ name i j, D name i j ↔ j = i + 1 ∧ name[i]? = some c) :
    (Writing.always (.ending written (endingOf c))).Means D := by
  intro e
  have spells : ∀ name i j, Spells name written i j ↔ D name i j := by
    intro name i j
    rw [h.spells_set, hD]
    simp [CharSet.contains]
  have means : (Fragment.ending written (endingOf c)).Means e D := by
    refine Fragment.ending_means ⟨_, h⟩ (fun name i j _ => spells name i j) ?_
    intro name i j _ hm
    obtain ⟨rfl, hc⟩ := (hD name i j).1 hm
    exact endingAt_succ hc
  cases e <;> exact means

theorem charPart_means {c : Char} (h : isLiteral c = true) :
    (Part.char c).writing.Means fun name => Part.Covers name (.char c) := by
  refine charWriting_means (writes_charText h) fun name i j => ⟨fun hm => ?_, fun hm => ?_⟩
  · cases hm with
    | char hc => exact ⟨rfl, hc⟩
  · obtain ⟨rfl, hc⟩ := hm
    exact .char hc

theorem escapePart_means {c : Char} (h : Regex.Token.isEscapable c = true) :
    (Part.escape c).writing.Means fun name => Part.Covers name (.escape c) := by
  refine charWriting_means (writes_escape h) fun name i j => ⟨fun hm => ?_, fun hm => ?_⟩
  · cases hm with
    | escape hc => exact ⟨rfl, hc⟩
  · obtain ⟨rfl, hc⟩ := hm
    exact .escape hc

theorem singlePart_means :
    Part.single.writing.Means fun name => Part.Covers name .single := by
  have covers : ∀ name i j, Part.Covers name .single i j ↔
      j = i + 1 ∧ ∃ c, name[i]? = some c ∧ isSegmentChar c = true := by
    refine fun name i j => ⟨fun hm => ?_, fun hm => ?_⟩
    · cases hm with
      | single hc hseg => exact ⟨rfl, _, hc, hseg⟩
    · obtain ⟨rfl, c, hc, hseg⟩ := hm
      exact .single hc hseg
  intro e
  have means : (Fragment.ending segmentOne .other).Means e
      fun name => Part.Covers name .single := by
    refine Fragment.ending_means ⟨_, writes_segmentOne⟩
      (fun name i j _ => by rw [spells_segmentOne, covers]) ?_
    intro name i j _ hm
    obtain ⟨rfl, c, hc, hseg⟩ := (covers name i j).1 hm
    rw [endingAt_succ hc]
    exact endingOf_segmentChar hseg
  cases e <;> exact means

theorem starPart_means : Part.star.writing.Means fun name => Part.Covers name .star := by
  have ending : ∀ name i j, Part.Covers name .star i j → endingAt name j = .other := by
    intro name i j hm
    obtain ⟨hall, hsome⟩ := covers_star.1 hm
    exact endingAt_segment hall hsome
  intro e
  cases e with
  | separator =>
    refine Fragment.ending_means ⟨_, writes_segmentSome⟩ (fun name i j hi => ?_)
      fun name i j _ => ending name i j
    rw [spells_segmentSome, covers_star, hi]
    simp
  | other =>
    refine Fragment.ending_means ⟨_, writes_segmentAny⟩ (fun name i j hi => ?_)
      fun name i j _ => ending name i j
    rw [spells_segmentAny, covers_star, hi]
    simp

/-! ## The wildcard across segments -/

/-- A path that ends with a separator. -/
theorem spells_path_separator {name : List Char} {i j : Nat} :
    Spells name (pathAny ++ ['/']) i j ↔
      (AllBetween isPathChar name i j ∧ i < j) ∧ endingAt name j = .separator := by
  have spells : ∀ k, Spells name ['/'] k j ↔ j = k + 1 ∧ name[k]? = some '/' := by
    intro k
    rw [writes_separator.spells_set]
    simp [CharSet.contains]
  simp only [spells_append ⟨_, writes_pathAny⟩ ⟨_, writes_separator⟩, spells_pathAny, spells]
  refine ⟨fun h => ?_, fun h => ?_⟩
  · obtain ⟨k, hk, rfl, hc⟩ := h
    have hlt : i < k + 1 := Nat.lt_succ_of_le hk.1
    exact ⟨⟨(allBetween_last hlt).2 ⟨k, _, rfl, hk, hc, rfl⟩, hlt⟩, endingAt_succ hc⟩
  · obtain ⟨⟨hall, hlt⟩, hsep⟩ := h
    obtain ⟨k, c, rfl, hk, hc, _⟩ := (allBetween_last hlt).1 hall
    rw [endingAt_succ hc] at hsep
    obtain rfl : c = '/' := by simpa [endingOf] using hsep
    exact ⟨k, hk, rfl, hc⟩

/-- A path that ends within a segment. -/
theorem spells_path_segment {name : List Char} {i j : Nat} :
    Spells name (pathAny ++ segmentOne) i j ↔
      (AllBetween isPathChar name i j ∧ i < j) ∧ endingAt name j = .other := by
  simp only [spells_append ⟨_, writes_pathAny⟩ ⟨_, writes_segmentOne⟩, spells_pathAny,
    spells_segmentOne]
  refine ⟨fun h => ?_, fun h => ?_⟩
  · obtain ⟨k, hk, rfl, c, hc, hseg⟩ := h
    have hlt : i < k + 1 := Nat.lt_succ_of_le hk.1
    have hpath : isPathChar c = true := by
      simp only [isSegmentChar, Bool.and_eq_true] at hseg
      exact hseg.2
    refine ⟨⟨(allBetween_last hlt).2 ⟨k, c, rfl, hk, hc, hpath⟩, hlt⟩, ?_⟩
    rw [endingAt_succ hc]
    exact endingOf_segmentChar hseg
  · obtain ⟨⟨hall, hlt⟩, hother⟩ := h
    obtain ⟨k, c, rfl, hk, hc, hpath⟩ := (allBetween_last hlt).1 hall
    rw [endingAt_succ hc] at hother
    have hne : c ≠ '/' := by
      intro hc'
      simp [endingOf, hc'] at hother
    exact ⟨k, hk, rfl, c, hc, by simp [isSegmentChar, hne]; simpa [isPathChar] using hpath⟩

theorem readable_path_separator : Readable (pathAny ++ ['/']) :=
  ⟨_, writes_pathAny.append writes_separator⟩

theorem readable_path_segment : Readable (pathAny ++ segmentOne) :=
  ⟨_, writes_pathAny.append writes_segmentOne⟩

/-- Behind a separator a path wildcard takes at least one character. -/
theorem globstarPart_means_separator :
    (Part.globstar.writing.after .separator).Means .separator
      fun name => Part.Covers name .globstar := by
  have spells : ∀ name i j, endingAt name i = .separator →
      (Spells name pathSome i j ↔ Part.Covers name .globstar i j) := by
    intro name i j hi
    rw [spells_pathSome, covers_globstar, hi]
    simp
  refine ⟨⟨⟨_, writes_pathSome⟩, fun d => ?_⟩, fun name i hi d j => ?_, spells⟩
  · cases d with
    | separator => exact readableSome_some.2 readable_path_separator
    | other => exact readableSome_some.2 readable_path_segment
  · show SpellsSome name _ i j ↔ Spells name pathSome i j ∧ _
    rw [spells_pathSome]
    cases d with
    | separator => exact spellsSome_some.trans spells_path_separator
    | other => exact spellsSome_some.trans spells_path_segment

/-- Behind any other ending it may take none. -/
theorem globstarPart_means_other :
    (Part.globstar.writing.after .other).Means .other fun name => Part.Covers name .globstar := by
  have spells : ∀ name i j, endingAt name i = .other →
      (Spells name pathAny i j ↔ Part.Covers name .globstar i j) := by
    intro name i j hi
    rw [spells_pathAny, covers_globstar, hi]
    simp
  have optional := Regex.spells_optional readable_path_segment
  refine ⟨⟨⟨_, writes_pathAny⟩, fun d => ?_⟩, fun name i hi d j => ?_, spells⟩
  · cases d with
    | separator => exact readableSome_some.2 readable_path_separator
    | other => exact readableSome_some.2 optional.1
  · show SpellsSome name _ i j ↔ Spells name pathAny i j ∧ _
    rw [spells_pathAny]
    -- a stretch that takes nothing leaves the ending as it is
    have stay : i = j → AllBetween isPathChar name i j ∧ endingAt name j = .other := by
      intro heq
      subst heq
      exact ⟨.refl _ _, hi⟩
    cases d with
    | separator =>
      refine (spellsSome_some.trans spells_path_separator).trans ⟨fun h => ?_, fun h => ?_⟩
      · exact ⟨h.1.1, h.2⟩
      · rcases Nat.eq_or_lt_of_le h.1.1 with heq | hlt
        · rw [(stay heq).2] at h
          cases h.2
        · exact ⟨⟨h.1, hlt⟩, h.2⟩
    | other =>
      refine (spellsSome_some.trans (optional.2 name i j)).trans ?_
      rw [spells_path_segment]
      refine ⟨fun h => ?_, fun h => ?_⟩
      · rcases h with heq | h
        · exact stay heq
        · exact ⟨h.1.1, h.2⟩
      · rcases Nat.eq_or_lt_of_le h.1.1 with heq | hlt
        · exact .inl heq
        · exact .inr ⟨⟨h.1, hlt⟩, h.2⟩

theorem globstarPart_means :
    Part.globstar.writing.Means fun name => Part.Covers name .globstar := by
  intro e
  cases e with
  | separator => exact globstarPart_means_separator
  | other => exact globstarPart_means_other

/-! ## Sequences and groups -/

theorem writings_eq_map (parts : List Part) : writings parts = parts.map Part.writing := by
  induction parts with
  | nil => rfl
  | cons part parts ih => rw [writings, ih, List.map_cons]

theorem writings_append (front back : List Part) :
    writings (front ++ back) = writings front ++ writings back := by
  rw [writings_eq_map, writings_eq_map, writings_eq_map, List.map_append]

theorem writingsOfAlternatives_eq_map (alternatives : List (List Part)) :
    writingsOfAlternatives alternatives = alternatives.map writings := by
  induction alternatives with
  | nil => rfl
  | cons parts alternatives ih => simp [writingsOfAlternatives, ih]

/-- A group is written as the choice between its alternatives. -/
theorem group_after (alternatives : List (List Part)) (e : Ending) :
    (Part.group alternatives).writing.after e =
      choice (alternatives.map fun parts => sequence e (writings parts)) := by
  cases e <;> simp [Part.writing, Writing.after, writingsOfAlternatives_eq_map, Function.comp_def]

/-- A group means the choice between its alternatives. -/
theorem groupPart_means {alternatives : List (List Part)} (hne : alternatives ≠ [])
    (h : ∀ parts ∈ alternatives, ∀ prior,
      (sequence prior (writings parts)).Means prior fun name => CoversAll name parts) :
    (Part.group alternatives).writing.Means fun name => Part.Covers name (.group alternatives) := by
  intro e
  have covers : (fun name => Part.Covers name (.group alternatives)) =
      fun name i j => ∃ parts ∈ alternatives, CoversAll name parts i j := by
    funext name i j
    exact propext covers_group
  rw [covers, group_after]
  exact choice_means hne fun parts hparts => h parts hparts e

/-- A sequence means what its parts cover, when extending a run by them
describes it. -/
theorem sequence_means_of_describes {parts : List Part} (prior : Ending)
    (h : ∀ run D, Run.Describes run prior D →
      ((writings parts).foldl Run.extend run).Describes prior
        (D.andThen fun name => CoversAll name parts)) :
    (sequence prior (writings parts)).Means prior fun name => CoversAll name parts := by
  have described := h _ _ (Run.describes_start prior)
  have whole : ∀ name i j, Extent.andThen (fun _ i j => i = j)
      (fun name => CoversAll name parts) name i j ↔ CoversAll name parts i j := by
    intro name i j
    simp [Extent.andThen]
  exact (described.congr whole).toFragment

mutual

/-- The expression of a plain part matches what the part covers. -/
theorem writing_means : ∀ part : Part, part.isFormed = true → part.isPlain = true →
    part.writing.Means fun name => Part.Covers name part
  | .char c, hf, _ => charPart_means (by simpa [Part.isFormed] using hf)
  | .escape c, _, hp => escapePart_means (by simpa [Part.isPlain] using hp)
  | .verbatim _, _, hp => by simp [Part.isPlain] at hp
  | .set _, _, hp => by simp [Part.isPlain] at hp
  | .assertion _, _, hp => by simp [Part.isPlain] at hp
  | .single, _, _ => singlePart_means
  | .star, _, _ => starPart_means
  | .globstar, _, _ => globstarPart_means
  | .group alternatives, hf, hp => by
    simp only [Part.isFormed, Bool.and_eq_true, Bool.not_eq_true', List.isEmpty_eq_false_iff]
      at hf
    rw [Part.isPlain] at hp
    exact groupPart_means hf.1 (alternatives_mean alternatives hf.2 hp)

/-- Extending a run by plain parts extends what it describes by what they
cover. -/
theorem extend_describes : ∀ parts : List Part, partsFormed parts = true →
    partsPlain parts = true → ∀ (prior : Ending) (run : Run) (D : Extent),
    run.Describes prior D → ((writings parts).foldl Run.extend run).Describes prior
      (D.andThen fun name => CoversAll name parts)
  | [], _, _, prior, run, D, h => h.congr fun name i j => by simp [Extent.andThen]
  | part :: parts, hf, hp, prior, run, D, h => by
    simp only [partsFormed, partsPlain, Bool.and_eq_true] at hf hp
    have one := h.extend (writing_means part hf.1 hp.1)
    refine (extend_describes parts hf.2 hp.2 prior _ _ one).congr fun name i j => ?_
    simp only [Extent.andThen, coversAll_cons]
    refine ⟨fun hm => ?_, fun hm => ?_⟩
    · obtain ⟨k, ⟨m, hD, hpart⟩, hparts⟩ := hm
      exact ⟨m, hD, k, hpart, hparts⟩
    · obtain ⟨m, hD, k, hpart, hparts⟩ := hm
      exact ⟨k, ⟨m, hD, hpart⟩, hparts⟩

/-- Each alternative of a plain group means what it covers. -/
theorem alternatives_mean : ∀ alternatives : List (List Part),
    alternativesFormed alternatives = true → alternativesPlain alternatives = true →
    ∀ parts ∈ alternatives, ∀ prior,
      (sequence prior (writings parts)).Means prior fun name => CoversAll name parts
  | [], _, _, _, hmem, _ => by simp at hmem
  | first :: alternatives, hf, hp, parts, hmem, prior => by
    simp only [alternativesFormed, alternativesPlain, Bool.and_eq_true] at hf hp
    have means := sequence_means_of_describes prior (extend_describes first hf.1 hp.1 prior)
    rcases List.mem_cons.1 hmem with heq | hmem
    · exact heq ▸ means
    · exact alternatives_mean alternatives hf.2 hp.2 parts hmem prior

end

/-- The expression of a plain sequence matches what the sequence covers. -/
theorem sequence_means {parts : List Part} (hf : partsFormed parts = true)
    (hp : partsPlain parts = true) (prior : Ending) :
    (sequence prior (writings parts)).Means prior fun name => CoversAll name parts :=
  sequence_means_of_describes prior (extend_describes parts hf hp prior)

end AccessPolicy.Glob
