import AccessPolicy.Proofs.Glob.Separator
import AccessPolicy.Proofs.Pattern.Cached
import AccessPolicy.Proofs.Pattern.Meaning

/-!
# Names that end with a separator

A pattern whose glob ends with a star matches no name that ends with a separator, since
behind a separator the star takes a character at least. This rests on what the
translation knows of the pieces that it passes on: it probes a set for the separator, and
takes a character behind a backslash to stand for itself. So each piece has to be complete
on its own (`Pattern.isMatch_star_eq_false`). An escape that goes on behind its first
character may stand for the separator unnoticed, and so may a set that ends elsewhere
than its glob takes it to (`Pattern.isMatch_star_of_incomplete`).
-/

namespace AccessPolicy.Pattern

open AccessPolicy.Glob (partsComplete)
open AccessPolicy.Regex (Readable Spells)

/-- A name matches when the expression of the glob spells it from end to end. -/
theorem isMatch_iff_spells (p : Pattern) {parts : List Glob.Part}
    (hparse : Glob.ofPattern? p.source = .ok parts)
    (hread : Readable (Glob.sequence .other (Glob.writings parts)).whole) (name : String) :
    p.isMatch name = true ↔ Spells name.toList
      (Glob.sequence .other (Glob.writings parts)).whole 0 name.toList.length := by
  obtain ⟨rs, hrs⟩ := hread
  have readable := p.readable
  rw [p.written_of_parts hparse] at readable
  have limit := Regex.withinNestLimit_of_read? (Option.isSome_of_eq_some readable)
  have regex : p.regex = _ :=
    Option.some.inj (readable.symm.trans (hrs.anchored.read? limit))
  rw [isMatch_iff, regex, Regex.found_anchored, hrs.spells_iff]

/-- A pattern whose glob ends with a star, and whose pieces are complete, matches no name
that ends with a separator. -/
theorem isMatch_star_eq_false (p : Pattern) {parts : List Glob.Part}
    (hparse : Glob.ofPattern? p.source = .ok parts) (hcomplete : partsComplete parts = true)
    (hlast : parts.getLast? = some .star) {name : String}
    (hname : name.toList.getLast? = some '/') : p.isMatch name = false := by
  have formed := Glob.ofPattern?_formed hparse
  have clears := Glob.sequence_clears (Glob.writings_clear parts formed hcomplete) .other
  rw [Bool.eq_false_iff]
  intro hmatch
  have spelled := (p.isMatch_iff_spells hparse clears.readable.whole name).1 hmatch
  exact Glob.not_isClear_length hname (Glob.isClear_of_star formed hcomplete hlast spelled)

/-- A set that may take the separator: behind it the star takes a character. -/
theorem isMatch_star_behind_set : ∃ p, compile? "/[a/]*" = .ok p ∧
    Glob.ofPattern? p.source = .ok [.char '/', .set "[a/]".toList, .star] ∧
    partsComplete [.char '/', .set "[a/]".toList, .star] = true ∧
    "//".toList.getLast? = some '/' ∧ p.isMatch "//" = false := by
  obtain ⟨p, hp⟩ : Compiles "/[a/]*" := by decide +kernel
  have parsed : Glob.ofPattern? p.source = .ok [.char '/', .set "[a/]".toList, .star] := by
    rw [source_of_compile? hp]
    rfl
  have complete : partsComplete [.char '/', .set "[a/]".toList, .star] = true := by
    decide +kernel
  exact ⟨p, hp, parsed, complete, rfl, p.isMatch_star_eq_false parsed complete rfl rfl⟩

/-- Pieces that are not complete: behind an escape of several characters, or a set that
does not end where the glob takes it to, the star takes nothing after a separator. -/
theorem isMatch_star_of_incomplete :
    (∃ p, compile? "\\x2f*" = .ok p ∧
      Glob.ofPattern? p.source = .ok [.escape 'x', .char '2', .char 'f', .star] ∧
      p.isMatch "/" = true) ∧
    ∃ p, compile? "[[]/]]*" = .ok p ∧
      Glob.ofPattern? p.source = .ok [.set "[[]/]".toList, .char ']', .star] ∧
      p.isMatch "/" = true := by
  constructor
  · have translated : Glob.translate? "\\x2f*" = .ok "^\\x2f[^/\\x00]*$".toList := rfl
    have read : Regex.read? "^\\x2f[^/\\x00]*$".toList = some (.cat (.assert .textStart)
        (.cat (.set (.single '/')) (.cat (.star (.set Glob.segmentSet)) (.assert .textEnd)))) := by
      decide +kernel
    obtain ⟨p, hp, _, hregex⟩ := exists_compile? translated read
    refine ⟨p, hp, ?_, ?_⟩
    · rw [source_of_compile? hp]
      rfl
    · rw [isMatch, hregex]
      decide
  · have translated : Glob.translate? "[[]/]]*" = .ok "^[[]/]][^/\\x00]*$".toList := by
      decide +kernel
    have read : Regex.read? "^[[]/]][^/\\x00]*$".toList = some (.cat (.assert .textStart)
        (.cat (.set (.bracket false (.bracket false (.union (.single ']') (.single '/')))))
          (.cat (.star (.set Glob.segmentSet)) (.assert .textEnd)))) := by
      decide +kernel
    obtain ⟨p, hp, _, hregex⟩ := exists_compile? translated read
    refine ⟨p, hp, ?_, ?_⟩
    · rw [source_of_compile? hp]
      rfl
    · rw [isMatch, hregex]
      decide

end AccessPolicy.Pattern
