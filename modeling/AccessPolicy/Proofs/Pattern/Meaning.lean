import AccessPolicy.Pattern.Basic
import AccessPolicy.Proofs.Glob.Translation
import AccessPolicy.Proofs.Regex.Search

/-!
# The meaning of plain patterns

A pattern made of characters, wildcards and groups compiles unless its
expression nests too deep, and then a name matches exactly when the parts of the
glob cover the whole name (`Pattern.isMatch_iff_coversAll`).
-/

namespace AccessPolicy.Pattern

open AccessPolicy.Glob (partsPlain partsFormed CoversAll)

/-- A pattern compiles when it has an expression and that can be read. -/
theorem exists_compile? {source : String} {written : List Char} {r : Regex}
    (hw : Glob.translate? source = .ok written) (hr : Regex.read? written = some r) :
    ∃ p, compile? source = .ok p ∧ p.written = written ∧ p.regex = r :=
  ⟨⟨source, written, r, hw, hr⟩, compile?_source ⟨source, written, r, hw, hr⟩, rfl, rfl⟩

/-- The text of a pattern is a glob. -/
theorem exists_parts (p : Pattern) : ∃ parts, Glob.ofPattern? p.source = .ok parts := by
  have translated := p.translated
  unfold Glob.translate? at translated
  cases hparse : Glob.ofPattern? p.source with
  | error e => simp [hparse, Except.map] at translated
  | ok parts => exact ⟨parts, rfl⟩

/-- The expression of a pattern is the one of its parts, between `^` and `$`. -/
theorem written_of_parts (p : Pattern) {parts : List Glob.Part}
    (h : Glob.ofPattern? p.source = .ok parts) :
    p.written = '^' :: ((Glob.sequence .other (Glob.writings parts)).whole ++ ['$']) := by
  have translated := p.translated
  rw [Glob.translate?, h] at translated
  exact (Except.ok.inj translated).symm

/-- A pattern is found where its expression is. -/
theorem isMatch_iff (p : Pattern) (name : String) :
    p.isMatch name = true ↔ p.regex.Found name.toList :=
  Regex.isFound_iff p.regex name.toList

/-- A plain pattern matches the names that its parts cover from end to end. -/
theorem isMatch_iff_coversAll {source : String} {parts : List Glob.Part}
    (hparse : Glob.ofPattern? source = .ok parts) (hplain : partsPlain parts = true)
    (hlimit : ∀ written, Glob.translate? source = .ok written →
      Regex.WithinNestLimit written) :
    ∃ p, compile? source = .ok p ∧ ∀ name : String,
      p.isMatch name = true ↔ CoversAll name.toList parts 0 name.toList.length := by
  have means := Glob.sequence_means (Glob.ofPattern?_formed hparse) hplain .other
  obtain ⟨rs, hrs⟩ := means.readable.whole
  have translated : Glob.translate? source =
      .ok (['^'] ++ (Glob.sequence .other (Glob.writings parts)).whole ++ ['$']) := by
    rw [Glob.translate?, hparse]
    rfl
  have read := hrs.anchored.read? (hlimit _ translated)
  obtain ⟨p, hp, _, hregex⟩ := exists_compile? translated read
  refine ⟨p, hp, fun name => ?_⟩
  rw [isMatch_iff, hregex, Regex.found_anchored, ← hrs.spells_iff,
    means.spells _ _ _ Glob.endingAt_zero]

/-- A wildcard behind a group that may end with a separator or not. -/
theorem isMatch_wildcard_behind_group :
    Glob.ofPattern? "/{a/,b}*" =
        .ok [.char '/', .group [[.char 'a', .char '/'], [.char 'b']], .star] ∧
      (∀ written, Glob.translate? "/{a/,b}*" = .ok written → Regex.WithinNestLimit written) ∧
      ∃ p, compile? "/{a/,b}*" = .ok p ∧ ∀ name : String, p.isMatch name = true ↔
        CoversAll name.toList [.char '/', .group [[.char 'a', .char '/'], [.char 'b']], .star]
          0 name.toList.length := by
  have parsed : Glob.ofPattern? "/{a/,b}*" =
      .ok [.char '/', .group [[.char 'a', .char '/'], [.char 'b']], .star] := rfl
  have within : ∀ written, Glob.translate? "/{a/,b}*" = .ok written →
      Regex.WithinNestLimit written := by
    intro written hw
    have translated : Glob.translate? "/{a/,b}*" =
        .ok "^/(?:a/[^/\\x00]+|b[^/\\x00]*)$".toList := rfl
    rw [translated] at hw
    cases hw
    exact Regex.withinNestLimit_of_read? (by decide +kernel)
  exact ⟨parsed, within, isMatch_iff_coversAll parsed rfl within⟩

end AccessPolicy.Pattern
