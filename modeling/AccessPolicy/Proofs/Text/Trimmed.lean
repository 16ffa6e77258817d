import AccessPolicy.Text.Blank
import Mathlib.Data.List.DropRight

/-!
# Trimmed texts

A text is trimmed when no blank stands at either end of it. Trimming drops blanks and
nothing else (`exists_trimmed`), makes a text such (`isTrimmed_trimChars`) and changes
none that is such already (`trimChars_eq_self`).
-/

namespace AccessPolicy.Text

/-- No blank stands at either end. -/
structure IsTrimmed (cs : List Char) : Prop where
  begins : ∀ c, cs.head? = some c → isBlank c = false
  ends : ∀ c, cs.getLast? = some c → isBlank c = false

theorem trimChars_eq (cs : List Char) :
    trimChars cs = (cs.dropWhile isBlank).rdropWhile isBlank := rfl

theorem isTrimmed_trimChars (cs : List Char) : IsTrimmed (trimChars cs) := by
  rw [trimChars_eq]
  constructor
  · -- what is left at the end begins as the text without its leading blanks
    intro c hc
    have front := List.head?_dropWhile_not isBlank cs
    obtain ⟨back, hback⟩ := List.rdropWhile_prefix isBlank (cs.dropWhile isBlank)
    rw [← hback, List.head?_append, hc] at front
    exact front
  · intro c hc
    have back := List.head?_dropWhile_not isBlank (cs.dropWhile isBlank).reverse
    rw [List.rdropWhile, List.getLast?_reverse] at hc
    rw [hc] at back
    exact back

/-- Trimming drops blanks from both ends and nothing else. -/
theorem exists_trimmed (cs : List Char) : ∃ back, (∀ c ∈ back, isBlank c = true) ∧
    cs = cs.takeWhile isBlank ++ (trimChars cs ++ back) := by
  refine ⟨(cs.dropWhile isBlank).rtakeWhile isBlank, fun c => List.mem_rtakeWhile_imp, ?_⟩
  have trailing : trimChars cs ++ (cs.dropWhile isBlank).rtakeWhile isBlank =
      cs.dropWhile isBlank := by
    rw [trimChars_eq, List.rdropWhile, List.rtakeWhile, ← List.reverse_append,
      List.takeWhile_append_dropWhile, List.reverse_reverse]
  rw [trailing, List.takeWhile_append_dropWhile]

theorem trimChars_eq_nil_iff {cs : List Char} :
    trimChars cs = [] ↔ ∀ c ∈ cs, isBlank c = true := by
  constructor
  · intro h c hc
    obtain ⟨back, hback, hcs⟩ := exists_trimmed cs
    rw [h, List.nil_append] at hcs
    rw [hcs] at hc
    rcases List.mem_append.1 hc with hc | hc
    · exact List.mem_takeWhile_imp hc
    · exact hback c hc
  · intro h
    rw [trimChars_eq, List.dropWhile_eq_nil_iff.2 h]
    rfl

/-- Trimming keeps all that is not blank. -/
theorem mem_trimChars {c : Char} {cs : List Char} (h : c ∈ cs) (hc : isBlank c = false) :
    c ∈ trimChars cs := by
  obtain ⟨back, hback, hcs⟩ := exists_trimmed cs
  rw [hcs] at h
  rcases List.mem_append.1 h with h | h
  · rw [List.mem_takeWhile_imp h] at hc
    exact nomatch hc
  · rcases List.mem_append.1 h with h | h
    · exact h
    · rw [hback c h] at hc
      exact nomatch hc

theorem trimChars_eq_self {cs : List Char} (h : IsTrimmed cs) : trimChars cs = cs := by
  have front : cs.dropWhile isBlank = cs := by
    cases cs with
    | nil => rfl
    | cons c cs => exact List.dropWhile_cons_of_neg (by rw [h.begins c rfl]; decide)
  rw [trimChars_eq, front, List.rdropWhile_eq_self_iff]
  intro hne
  rw [h.ends _ (List.getLast?_eq_some_getLast hne)]
  decide

theorem isTrimmed_singleton {c : Char} (h : isBlank c = false) : IsTrimmed [c] := by
  constructor
  · rintro d ⟨⟩
    exact h
  · rintro d ⟨⟩
    exact h

/-- A text is trimmed when what it begins with and what it ends with are. -/
theorem isTrimmed_append {front back : List Char} (hfront : IsTrimmed front)
    (hback : IsTrimmed back) (hfrontNe : front ≠ []) (hbackNe : back ≠ [])
    (middle : List Char) : IsTrimmed (front ++ (middle ++ back)) := by
  obtain ⟨c, cs, rfl⟩ := List.exists_cons_of_ne_nil hfrontNe
  obtain ⟨ds, d, rfl⟩ := (List.eq_nil_or_concat' back).resolve_left hbackNe
  constructor
  · rintro e ⟨⟩
    exact hfront.begins c rfl
  · intro e he
    rw [← List.append_assoc, ← List.append_assoc, List.getLast?_concat] at he
    cases he
    exact hback.ends d List.getLast?_concat

/-- Trimming a text that was trimmed changes nothing. -/
theorem trim_eq_self {s : String} (h : IsTrimmed s.toList) : trim s = s := by
  rw [trim, trimChars_eq_self h, String.ofList_toList]

theorem isTrimmed_trim (s : String) : IsTrimmed (trim s).toList := by
  rw [trim, String.toList_ofList]
  exact isTrimmed_trimChars s.toList

end AccessPolicy.Text
