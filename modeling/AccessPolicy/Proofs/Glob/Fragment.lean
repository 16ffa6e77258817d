import AccessPolicy.Proofs.Glob.Composed
import AccessPolicy.Proofs.Glob.Covers
import AccessPolicy.Proofs.Regex.Written

/-!
# The languages of fragments

A fragment holds one expression three times: whole, and split by how its
matches end. The split is right at a position when the two halves together
match what the whole matches there, each with its ending (`SplitsAt`). A
fragment means a relation behind an ending when it is read, splits rightly and
matches that relation at every position with this ending (`Means`).

The way from parts to the fragment of a sequence keeps both:

* `Fragment.branch_splitsAt` — one piece behind another, where the second piece is
  chosen by the ending of the first;
* `choice_means` — a choice between pieces;
* `Run.Describes.extend` — one more part behind a sequence.
-/

namespace AccessPolicy.Glob

open AccessPolicy.Regex (Readable Spells spells_append spells_choice readable_nil spells_nil)

/-- A relation between two positions of a name. -/
abbrev Extent := List Char → Nat → Nat → Prop

/-- The piece is not missing, and matches between two positions. -/
def SpellsSome (name : List Char) (piece : Option (List Char)) (i j : Nat) : Prop :=
  ∃ written, piece = some written ∧ Spells name written i j

@[simp] theorem spellsSome_none {name : List Char} {i j : Nat} :
    ¬ SpellsSome name none i j := by
  simp [SpellsSome]

@[simp] theorem spellsSome_some {name written : List Char} {i j : Nat} :
    SpellsSome name (some written) i j ↔ Spells name written i j := by
  simp [SpellsSome]

/-- The piece can be read unless it is missing. -/
def ReadableSome (piece : Option (List Char)) : Prop :=
  ∀ written, piece = some written → Readable written

@[simp] theorem readableSome_none : ReadableSome none := nofun

@[simp] theorem readableSome_some {written : List Char} :
    ReadableSome (some written) ↔ Readable written := by
  simp [ReadableSome]

namespace Fragment

/-- Every text of the fragment can be read. -/
structure IsReadable (f : Fragment) : Prop where
  whole : Readable f.whole
  half : ∀ e, ReadableSome (f.half e)

theorem isReadable_iff {f : Fragment} : f.IsReadable ↔ f.All Readable :=
  ⟨fun h => ⟨h.whole, h.half⟩, fun h => ⟨h.whole, h.half⟩⟩

/-- At a position, each half matches what the whole matches with its ending. -/
def SplitsAt (f : Fragment) (name : List Char) (i : Nat) : Prop :=
  ∀ e j, SpellsSome name (f.half e) i j ↔ Spells name f.whole i j ∧ endingAt name j = e

/-- The fragment is read, and behind an ending it splits rightly and matches a
relation. -/
structure Means (f : Fragment) (prior : Ending) (D : Extent) : Prop where
  readable : f.IsReadable
  splits : ∀ name i, endingAt name i = prior → f.SplitsAt name i
  spells : ∀ name i j, endingAt name i = prior → (Spells name f.whole i j ↔ D name i j)

/-- A half that is missing has no match to miss. -/
theorem SplitsAt.ending_ne {f : Fragment} {name : List Char} {i j : Nat} {e : Ending}
    (h : f.SplitsAt name i) (hnone : f.half e = none) (hw : Spells name f.whole i j) :
    endingAt name j ≠ e := by
  intro he
  have := (h e j).2 ⟨hw, he⟩
  rw [hnone] at this
  exact spellsSome_none this

theorem ending_readable {written : List Char} (h : Readable written) (e : Ending) :
    (Fragment.ending written e).IsReadable :=
  isReadable_iff.2 (all_ending h e)

/-- A text all of whose matches end in one way. -/
theorem ending_means {written : List Char} {prior e : Ending} {D : Extent}
    (hread : Readable written)
    (hspells : ∀ name i j, endingAt name i = prior → (Spells name written i j ↔ D name i j))
    (hending : ∀ name i j, endingAt name i = prior → D name i j → endingAt name j = e) :
    (Fragment.ending written e).Means prior D where
  readable := ending_readable hread e
  splits := by
    intro name i hi d j
    have hend : Spells name written i j → endingAt name j = e := fun hw =>
      hending name i j hi ((hspells name i j hi).1 hw)
    cases e <;> cases d <;> simp only [ending, half, spellsSome_some, spellsSome_none] <;> grind
  spells := by
    intro name i j hi
    cases e <;> exact hspells name i j hi

end Fragment

/-! ## Choices between pieces -/

theorem composes_readable : Composes Readable :=
  ⟨readable_nil, .append, fun hne hopen h => (spells_choice hne hopen h).1⟩

theorem alternation?_spells {branches : List (Option (List Char))}
    (h : ∀ b ∈ branches, ReadableSome b) {name : List Char} {i j : Nat} :
    SpellsSome name (alternation? branches) i j ↔ ∃ b ∈ branches, SpellsSome name b i j := by
  have present : (∃ b ∈ branches, SpellsSome name b i j) ↔
      ∃ w ∈ branches.filterMap id, Spells name w i j := by
    simp only [List.mem_filterMap, id_eq, SpellsSome]
    refine ⟨?_, ?_⟩
    · intro h
      obtain ⟨b, hb, w, rfl, hw⟩ := h
      exact ⟨w, ⟨_, hb, rfl⟩, hw⟩
    · intro h
      obtain ⟨w, ⟨b, hb, rfl⟩, hw⟩ := h
      exact ⟨_, hb, w, rfl, hw⟩
  have readable : ∀ w ∈ branches.filterMap id, Readable w := by
    intro w hw
    obtain ⟨b, hb, hbw⟩ := List.mem_filterMap.1 hw
    exact h b hb w hbw
  rw [present]
  unfold alternation?
  generalize branches.filterMap id = ws at readable
  match ws with
  | [] => simp
  | [w] => simp
  | v :: w :: ws =>
    rw [spellsSome_some]
    exact (spells_choice (by simp) (.inr rfl) readable).2 name i j

theorem join?_spells {head tail : Option (List Char)} (hh : ReadableSome head)
    (ht : ReadableSome tail) {name : List Char} {i j : Nat} :
    SpellsSome name (Fragment.join? head tail) i j ↔
      ∃ k, SpellsSome name head i k ∧ SpellsSome name tail k j := by
  cases head with
  | none => simp [Fragment.join?]
  | some v =>
    cases tail with
    | none => simp [Fragment.join?]
    | some w =>
      rw [readableSome_some] at hh ht
      simp only [Fragment.join?, spellsSome_some]
      exact spells_append hh ht

/-- One of two choices of a piece that is split, each with its own piece behind
it. -/
theorem branchHalf_spells {f : Fragment} (hf : f.IsReadable)
    {behind : Ending → Option (List Char)} (hb : ∀ e, ReadableSome (behind e))
    (name : List Char) (i j : Nat) :
    SpellsSome name (alternation? [Fragment.join? f.atSeparator (behind .separator),
      Fragment.join? f.elsewhere (behind .other)]) i j ↔
        ∃ e k, SpellsSome name (f.half e) i k ∧ SpellsSome name (behind e) k j := by
  have joined : ∀ e, ReadableSome (Fragment.join? (f.half e) (behind e)) :=
    fun e => composes_readable.join? (hf.half e) (hb e)
  have both : ∀ b ∈ [Fragment.join? (f.half .separator) (behind .separator),
      Fragment.join? (f.half .other) (behind .other)], ReadableSome b := by
    simp [joined]
  have split : (∃ e k, SpellsSome name (f.half e) i k ∧ SpellsSome name (behind e) k j) ↔
      (∃ k, SpellsSome name (f.half .separator) i k ∧
          SpellsSome name (behind .separator) k j) ∨
        ∃ k, SpellsSome name (f.half .other) i k ∧ SpellsSome name (behind .other) k j := by
    refine ⟨?_, ?_⟩
    · intro h
      obtain ⟨e, k, h⟩ := h
      cases e
      · exact .inl ⟨k, h⟩
      · exact .inr ⟨k, h⟩
    · intro h
      rcases h with ⟨k, h⟩ | ⟨k, h⟩
      · exact ⟨_, k, h⟩
      · exact ⟨_, k, h⟩
  rw [split, ← join?_spells (hf.half .separator) (hb .separator),
    ← join?_spells (hf.half .other) (hb .other)]
  exact (alternation?_spells both).trans (by simp)

/-! ## One piece behind another -/

/-- One relation behind another. -/
def Extent.andThen (D E : Extent) : Extent := fun name i j => ∃ k, D name i k ∧ E name k j

/-- Behind each ending the fragment that is written for it means the relation. -/
def Writing.Means (w : Writing) (D : Extent) : Prop := ∀ e, (w.after e).Means e D

/-- Behind a fragment that splits rightly, the fragment chosen by the ending
matches as its relation says, whole or with one ending. -/
theorem behind_half {f : Fragment} {name : List Char} {i : Nat} (hf : f.SplitsAt name i)
    (behind : Ending → Option (List Char)) {E : Nat → Nat → Prop}
    (hb : ∀ k j, SpellsSome name (behind (endingAt name k)) k j ↔ E k j) (j : Nat) :
    (∃ e k, SpellsSome name (f.half e) i k ∧ SpellsSome name (behind e) k j) ↔
      ∃ k, Spells name f.whole i k ∧ E k j := by
  refine ⟨?_, ?_⟩
  · intro h
    obtain ⟨e, k, hhead, htail⟩ := h
    obtain ⟨hwhole, rfl⟩ := (hf e k).1 hhead
    exact ⟨k, hwhole, (hb k j).1 htail⟩
  · intro h
    obtain ⟨k, hwhole, hE⟩ := h
    exact ⟨endingAt name k, k, (hf _ k).2 ⟨hwhole, rfl⟩, (hb k j).2 hE⟩

theorem Fragment.branch_readable {f : Fragment} (hf : f.IsReadable) {w : Writing}
    (hw : ∀ e, (w.after e).IsReadable) :
    (f.branch w.afterSeparator w.afterOther).IsReadable :=
  isReadable_iff.2 (composes_readable.all_branch (isReadable_iff.1 hf) fun e =>
    isReadable_iff.1 (hw e))

/-- The whole of a branch, where the half of the first piece for a separator is not
missing. -/
theorem Fragment.branch_spells {f : Fragment} (hf : f.IsReadable) {w : Writing}
    (hw : ∀ e, (w.after e).IsReadable) (hpresent : f.atSeparator ≠ none) {name : List Char}
    {i j : Nat} : Spells name (f.branch w.afterSeparator w.afterOther).whole i j ↔
      ∃ e k, SpellsSome name (f.half e) i k ∧ Spells name (w.after e).whole k j := by
  have choice := branchHalf_spells hf (fun e => readableSome_some.2 (hw e).whole) name i j
  simp only [spellsSome_some] at choice
  obtain ⟨v, hv⟩ := Option.ne_none_iff_exists'.1 hpresent
  have some_branch : ∃ written, alternation? [join? f.atSeparator (some (w.after .separator).whole),
      join? f.elsewhere (some (w.after .other).whole)] = some written := by
    cases he : f.elsewhere <;> simp [hv, join?, alternation?]
  obtain ⟨written, hwritten⟩ := some_branch
  have whole : (f.branch w.afterSeparator w.afterOther).whole = written :=
    congrArg (Option.getD · []) hwritten
  rw [← choice, hwritten, spellsSome_some, whole]

/-- The whole of a branch, where the first piece splits rightly. -/
theorem Fragment.branch_whole {f : Fragment} (hf : f.IsReadable) {w : Writing} {D : Extent}
    (hw : w.Means D) {name : List Char} {i : Nat} (hs : f.SplitsAt name i)
    (hpresent : f.atSeparator ≠ none) (j : Nat) :
    Spells name (f.branch w.afterSeparator w.afterOther).whole i j ↔
      ∃ k, Spells name f.whole i k ∧ D name k j := by
  have behind : ∀ k m, SpellsSome name (some (w.after (endingAt name k)).whole) k m ↔
      D name k m := fun k m => by
    rw [spellsSome_some, (hw _).spells name k m rfl]
  have reached := behind_half hs (fun e => some (w.after e).whole) behind j
  simp only [spellsSome_some] at reached
  rw [branch_spells hf (fun e => (hw e).readable) hpresent, reached]

theorem Fragment.branch_splitsAt {f : Fragment} (hf : f.IsReadable) {w : Writing} {D : Extent}
    (hw : w.Means D) {name : List Char} {i : Nat} (hs : f.SplitsAt name i)
    (hpresent : f.atSeparator ≠ none) :
    (f.branch w.afterSeparator w.afterOther).SplitsAt name i := by
  intro e j
  have choice := branchHalf_spells hf (fun d => (hw d).readable.half e) name i j
  have behind : ∀ k m, SpellsSome name ((w.after (endingAt name k)).half e) k m ↔
      D name k m ∧ endingAt name m = e := fun k m => by
    rw [(hw _).splits name k rfl e m, (hw _).spells name k m rfl]
  rw [half_branch, branch_whole hf hw hs hpresent]
  refine choice.trans ((behind_half hs (fun d => (w.after d).half e) behind j).trans ?_)
  refine ⟨?_, ?_⟩
  · intro h
    obtain ⟨k, hk, hD, he⟩ := h
    exact ⟨⟨k, hk, hD⟩, he⟩
  · intro h
    obtain ⟨⟨k, hk, hD⟩, he⟩ := h
    exact ⟨k, hk, hD, he⟩

/-! ## Sequences -/

/-- The run is read, its last piece splits rightly wherever the text before it
ends, and together they match a relation behind an ending. -/
structure Run.Describes (run : Run) (prior : Ending) (D : Extent) : Prop where
  head : Readable run.head
  last : run.last.IsReadable
  splits : ∀ name i k, endingAt name i = prior → Spells name run.head i k →
    run.last.SplitsAt name k
  spells : ∀ name i j, endingAt name i = prior →
    ((∃ k, Spells name run.head i k ∧ Spells name run.last.whole k j) ↔ D name i j)

theorem Run.describes_start (prior : Ending) :
    (Run.start prior).Describes prior (fun _ i j => i = j) := by
  have empty : (Fragment.ending [] prior).Means prior (fun _ i j => i = j) :=
    Fragment.ending_means readable_nil (fun _ _ _ _ => spells_nil)
      (fun _ _ _ hi heq => heq ▸ hi)
  refine ⟨readable_nil, empty.readable, ?_, ?_⟩
  · intro name i k hi hk
    obtain rfl := spells_nil.1 hk
    exact empty.splits name i hi
  · intro name i j hi
    cases prior <;> simp [Run.start, Fragment.ending]

/-- The last piece joins the text before it, and the next piece is written for
an ending that is the right one wherever a match ends. -/
theorem Run.Describes.append {run : Run} {prior : Ending} {D E : Extent}
    (h : run.Describes prior D) {w : Writing} (hw : w.Means E) (e : Ending)
    (he : ∀ name i k, endingAt name i = prior → D name i k →
      w.after e = w.after (endingAt name k)) :
    Run.Describes ⟨run.head ++ run.last.whole, w.after e⟩ prior (D.andThen E) where
  head := h.head.append h.last.whole
  last := (hw e).readable
  splits := by
    intro name i k hi hk
    rw [spells_append h.head h.last.whole, h.spells name i k hi] at hk
    show (w.after e).SplitsAt name k
    rw [he name i k hi hk]
    exact (hw _).splits name k rfl
  spells := by
    intro name i j hi
    simp only [spells_append h.head h.last.whole, h.spells name i _ hi]
    refine ⟨?_, ?_⟩
    · intro h
      obtain ⟨k, hk, hj⟩ := h
      rw [he name i k hi hk] at hj
      exact ⟨k, hk, ((hw _).spells name k j rfl).1 hj⟩
    · intro h
      obtain ⟨k, hk, hj⟩ := h
      refine ⟨k, hk, ?_⟩
      rw [he name i k hi hk]
      exact ((hw _).spells name k j rfl).2 hj

theorem Run.Describes.ending_ne {run : Run} {prior : Ending} {D : Extent}
    (h : run.Describes prior D) {e : Ending} (hnone : run.last.half e = none)
    {name : List Char} {i k : Nat} (hi : endingAt name i = prior) (hD : D name i k) :
    endingAt name k ≠ e := by
  obtain ⟨m, hm, hk⟩ := (h.spells name i k hi).2 hD
  exact (h.splits name i m hi hm).ending_ne hnone hk

/-- One more part behind a sequence. -/
theorem Run.Describes.extend {run : Run} {prior : Ending} {D E : Extent}
    (h : run.Describes prior D) {w : Writing} (hw : w.Means E) :
    (run.extend w).Describes prior (D.andThen E) := by
  unfold Run.extend
  split
  · -- every match so far ends with a separator
    rename_i _ hother
    refine h.append hw .separator fun name i k hi hD => ?_
    have ne : endingAt name k ≠ .other := h.ending_ne (e := .other) hother hi hD
    cases he : endingAt name k with
    | separator => rfl
    | other => exact absurd he ne
  · rename_i _ _ hsep _
    split
    · -- the part is written in one way
      rename_i same
      refine h.append hw .other fun name i k _ _ => ?_
      cases endingAt name k with
      | separator => exact same.symm
      | other => rfl
    · -- the part is written in two ways, so the last piece is repeated for both
      have hpresent : run.last.atSeparator ≠ none := by simp [hsep]
      have hlast := h.last
      refine ⟨h.head, Fragment.branch_readable hlast fun e => (hw e).readable, ?_, ?_⟩
      · intro name i k hi hk
        exact Fragment.branch_splitsAt hlast hw (h.splits name i k hi hk) hpresent
      · intro name i j hi
        refine ⟨?_, ?_⟩
        · intro h
          obtain ⟨k, hk, hj⟩ := h
          rw [Fragment.branch_whole hlast hw (h.splits name i k hi hk) hpresent] at hj
          obtain ⟨m, hm, hE⟩ := hj
          exact ⟨m, (h.spells name i m hi).1 ⟨k, hk, hm⟩, hE⟩
        · intro h
          obtain ⟨m, hD, hE⟩ := h
          obtain ⟨k, hk, hm⟩ := (h.spells name i m hi).2 hD
          refine ⟨k, hk, ?_⟩
          rw [Fragment.branch_whole hlast hw (h.splits name i k hi hk) hpresent]
          exact ⟨m, hm, hE⟩
  · -- no match so far ends with a separator
    rename_i hsep
    refine h.append hw .other fun name i k hi hD => ?_
    have ne : endingAt name k ≠ .separator := h.ending_ne (e := .separator) hsep hi hD
    rw [Ending.ne_separator.1 ne]

theorem Run.Describes.congr {run : Run} {prior : Ending} {D E : Extent}
    (h : run.Describes prior D) (hDE : ∀ name i j, D name i j ↔ E name i j) :
    run.Describes prior E :=
  ⟨h.head, h.last, h.splits, fun name i j hi => (h.spells name i j hi).trans (hDE name i j)⟩

theorem Run.toFragment_readable {run : Run} (hhead : Readable run.head)
    (hlast : run.last.IsReadable) : run.toFragment.IsReadable :=
  Fragment.isReadable_iff.2 (composes_readable.all_toFragment
    ⟨hhead, Fragment.isReadable_iff.1 hlast⟩)

theorem Run.toFragment_whole {run : Run} (hhead : Readable run.head)
    (hlast : run.last.IsReadable) {name : List Char} {i j : Nat} :
    Spells name run.toFragment.whole i j ↔
      ∃ k, Spells name run.head i k ∧ Spells name run.last.whole k j :=
  spells_append hhead hlast.whole

theorem Run.toFragment_half {run : Run} (hhead : Readable run.head)
    (hlast : run.last.IsReadable) {name : List Char} {i j : Nat} (e : Ending) :
    SpellsSome name (run.toFragment.half e) i j ↔
      ∃ k, Spells name run.head i k ∧ SpellsSome name (run.last.half e) k j := by
  rw [Run.toFragment, Fragment.half_prepend]
  cases h : run.last.half e with
  | none => simp
  | some last => simp [spells_append hhead (hlast.half e last h)]

/-- The fragment of a run means what the run describes. -/
theorem Run.Describes.toFragment {run : Run} {prior : Ending} {D : Extent}
    (h : run.Describes prior D) : run.toFragment.Means prior D := by
  refine ⟨toFragment_readable h.head h.last, ?_, ?_⟩
  · intro name i hi e j
    rw [toFragment_half h.head h.last, toFragment_whole h.head h.last]
    refine ⟨?_, ?_⟩
    · intro h
      obtain ⟨k, hk, hj⟩ := h
      obtain ⟨hj, he⟩ := (h.splits name i k hi hk e j).1 hj
      exact ⟨⟨k, hk, hj⟩, he⟩
    · intro h
      obtain ⟨⟨k, hk, hj⟩, he⟩ := h
      exact ⟨k, hk, (h.splits name i k hi hk e j).2 ⟨hj, he⟩⟩
  · intro name i j hi
    rw [toFragment_whole h.head h.last, h.spells name i j hi]

/-! ## Groups -/

theorem choice_whole {pieces : List Fragment} (hne : pieces ≠ [])
    (h : ∀ f ∈ pieces, f.IsReadable) {name : List Char} {i j : Nat} :
    Spells name (choice pieces).whole i j ↔ ∃ f ∈ pieces, Spells name f.whole i j := by
  have wholes : ∀ w ∈ pieces.map (·.whole), Readable w := by
    intro w hw
    obtain ⟨f, hf, rfl⟩ := List.mem_map.1 hw
    exact (h f hf).whole
  exact ((spells_choice (by simpa using hne) (.inl rfl) wholes).2 name i j).trans (by simp)

theorem choice_half {pieces : List Fragment} (h : ∀ f ∈ pieces, f.IsReadable) (e : Ending)
    {name : List Char} {i j : Nat} :
    SpellsSome name ((choice pieces).half e) i j ↔
      ∃ f ∈ pieces, SpellsSome name (f.half e) i j := by
  have halves : ∀ b ∈ pieces.map (·.half e), ReadableSome b := by
    intro b hb
    obtain ⟨f, hf, rfl⟩ := List.mem_map.1 hb
    exact (h f hf).half e
  rw [half_choice]
  exact (alternation?_spells halves).trans (by simp)

theorem choice_readable {pieces : List Fragment} (hne : pieces ≠ [])
    (h : ∀ f ∈ pieces, f.IsReadable) : (choice pieces).IsReadable :=
  Fragment.isReadable_iff.2 (composes_readable.all_choice hne fun f hf =>
    Fragment.isReadable_iff.1 (h f hf))

/-- A choice between fragments means the choice between their relations. -/
theorem choice_means {α : Type} {alternatives : List α} {piece : α → Fragment}
    {D : α → Extent} {prior : Ending} (hne : alternatives ≠ [])
    (h : ∀ a ∈ alternatives, (piece a).Means prior (D a)) :
    (choice (alternatives.map piece)).Means prior
      (fun name i j => ∃ a ∈ alternatives, D a name i j) := by
  have readable : ∀ f ∈ alternatives.map piece, f.IsReadable := by
    intro f hf
    obtain ⟨a, ha, rfl⟩ := List.mem_map.1 hf
    exact (h a ha).readable
  have some : alternatives.map piece ≠ [] := by simpa using hne
  have whole : ∀ name i j, Spells name (choice (alternatives.map piece)).whole i j ↔
      ∃ a ∈ alternatives, Spells name (piece a).whole i j :=
    fun _ _ _ => (choice_whole some readable).trans (by simp)
  have half : ∀ e name i j, SpellsSome name ((choice (alternatives.map piece)).half e) i j ↔
      ∃ a ∈ alternatives, SpellsSome name ((piece a).half e) i j :=
    fun e _ _ _ => (choice_half readable e).trans (by simp)
  refine ⟨choice_readable some readable, ?_, ?_⟩
  · intro name i hi e j
    rw [half, whole]
    refine ⟨?_, ?_⟩
    · intro h
      obtain ⟨a, ha, hj⟩ := h
      obtain ⟨hj, he⟩ := ((h a ha).splits name i hi e j).1 hj
      exact ⟨⟨a, ha, hj⟩, he⟩
    · intro h
      obtain ⟨⟨a, ha, hj⟩, he⟩ := h
      exact ⟨a, ha, ((h a ha).splits name i hi e j).2 ⟨hj, he⟩⟩
  · intro name i j hi
    rw [whole]
    refine ⟨?_, ?_⟩
    · intro h
      obtain ⟨a, ha, hj⟩ := h
      exact ⟨a, ha, ((h a ha).spells name i j hi).1 hj⟩
    · intro h
      obtain ⟨a, ha, hD⟩ := h
      exact ⟨a, ha, ((h a ha).spells name i j hi).2 hD⟩

end AccessPolicy.Glob
