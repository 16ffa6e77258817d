import AccessPolicy.Proofs.Glob.Fragment
import AccessPolicy.Proofs.Regex.Language

/-!
# The languages of the halves

A fragment is split by how its matches end, and how an empty match ends is told by what
stands before it. So the split is a fact about positions behind an ending
(`Fragment.SplitsBehind`). Where no text of the fragment has an assertion it is a fact about
languages: each half has the texts of the whole that end in one way, where an empty text
ends as what stands before it (`Fragment.SplitsBehind.mem_languageOf`).

Fragments keep off assertions in every way they are composed (`composes_writesLocal`).
-/

namespace AccessPolicy.Glob

open AccessPolicy.Regex (WritesLocal Spells language)

/-! ## Fragments without assertions -/

/-- Texts without assertions are composed to texts without assertions. -/
theorem composes_writesLocal : Composes WritesLocal := ⟨.nil, .append, .choice⟩

/-- No text of the fragment has an assertion. -/
abbrev Fragment.IsLocal (f : Fragment) : Prop := f.All WritesLocal

theorem Fragment.IsLocal.readable {f : Fragment} (h : f.IsLocal) : f.IsReadable :=
  ⟨h.whole.readable, fun e written hw => (h.half e written hw).readable⟩

/-! ## Split fragments -/

/-- The fragment has no assertion, and it splits rightly wherever it stands behind an
ending. -/
structure Fragment.SplitsBehind (f : Fragment) (prior : Ending) : Prop where
  isLocal : f.IsLocal
  splitsAt : ∀ name i, endingAt name i = prior → f.SplitsAt name i

/-- What a text ends with that stands behind an ending. -/
def endingBehind (prior : Ending) (text : List Char) : Ending :=
  (text.getLast?.map endingOf).getD prior

theorem endingAt_behind (before text : List Char) :
    endingAt (before ++ text) (before.length + text.length) =
      endingBehind (endingAt (before ++ text) before.length) text := by
  rcases List.eq_nil_or_concat' text with rfl | ⟨front, c, rfl⟩
  · rfl
  · have last : (before ++ (front ++ [c]))[before.length + front.length]? = some c := by
      rw [Regex.getElem?_behind]
      exact List.getElem?_concat_length
    rw [List.length_append, List.length_singleton, ← Nat.add_assoc, endingAt_succ last,
      endingBehind, List.getLast?_concat]
    rfl

/-- Behind either ending there is a place for any text. -/
theorem exists_before (prior : Ending) :
    ∃ before : List Char, ∀ text, endingAt (before ++ text) before.length = prior := by
  cases prior with
  | separator => exact ⟨['/'], fun _ => rfl⟩
  | other => exact ⟨[], fun _ => rfl⟩

/-- The language of a piece that may be missing. -/
def languageOf (piece : Option (List Char)) : Set (List Char) :=
  {text | ∃ written ∈ piece, text ∈ language written}

/-- A half has the texts of the whole that end in one way. -/
theorem Fragment.SplitsBehind.mem_languageOf {f : Fragment} {prior : Ending}
    (h : f.SplitsBehind prior) (e : Ending) (text : List Char) :
    text ∈ languageOf (f.half e) ↔ text ∈ language f.whole ∧ endingBehind prior text = e := by
  obtain ⟨before, hbefore⟩ := exists_before prior
  -- a piece matches behind the text in front what it matches on its own
  have alone : ∀ written, WritesLocal written → (text ∈ language written ↔
      Spells (before ++ text) written before.length (before.length + text.length)) := by
    intro written hwritten
    rw [hwritten.readable.mem_language, ← hwritten.spells_behind before, Nat.add_zero]
  have half : text ∈ languageOf (f.half e) ↔ SpellsSome (before ++ text) (f.half e)
      before.length (before.length + text.length) :=
    exists_congr fun written => and_congr_right fun hw => alone written (h.isLocal.half e _ hw)
  rw [half, h.splitsAt _ _ (hbefore text) e, alone _ h.isLocal.whole, endingAt_behind, hbefore]

/-- All texts of the fragment can be read, its halves together have the texts of the whole,
and each has texts of one ending only, where an empty text ends as what stands before it. -/
structure Fragment.IsSplit (f : Fragment) (prior : Ending) : Prop where
  readable : f.IsReadable
  whole : language f.whole = languageOf f.atSeparator ∪ languageOf f.elsewhere
  atSeparator : ∀ text ∈ languageOf f.atSeparator,
    text.getLast? = some '/' ∨ text = [] ∧ prior = .separator
  elsewhere : ∀ text ∈ languageOf f.elsewhere,
    text.getLast? ≠ some '/' ∧ (text ≠ [] ∨ prior = .other)

theorem endingBehind_eq_separator {prior : Ending} {text : List Char} :
    endingBehind prior text = .separator ↔
      text.getLast? = some '/' ∨ text = [] ∧ prior = .separator := by
  rcases List.eq_nil_or_concat' text with rfl | ⟨front, c, rfl⟩
  · simp [endingBehind]
  · simp [endingBehind, endingOf]

theorem Fragment.SplitsBehind.isSplit {f : Fragment} {prior : Ending} (h : f.SplitsBehind prior) :
    f.IsSplit prior where
  readable := h.isLocal.readable
  whole := by
    ext text
    have separator := h.mem_languageOf .separator text
    have other := h.mem_languageOf .other text
    show _ ↔ text ∈ languageOf (f.half .separator) ∨ text ∈ languageOf (f.half .other)
    rw [separator, other, ← and_or_left]
    cases endingBehind prior text <;> simp
  atSeparator := by
    intro text htext
    exact endingBehind_eq_separator.1 ((h.mem_languageOf .separator text).1 htext).2
  elsewhere := by
    intro text htext
    have ending := ((h.mem_languageOf .other text).1 htext).2
    rw [← Ending.ne_separator, Ne, endingBehind_eq_separator, not_or, not_and_or] at ending
    exact ending.imp_right fun h => h.imp_right Ending.ne_separator.1

end AccessPolicy.Glob
