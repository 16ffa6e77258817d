import AccessPolicy.Proofs.Pattern.Literal
import AccessPolicy.Proofs.Pattern.Separator

/-!
# Patterns that match their own text

A pattern need not match the text in which it is written: a group, a set or an escape
takes something else than the characters that write it. A text of ordinary characters
and wildcards does match itself, since every wildcard takes the characters by which it
is written, if nothing is dropped from its ends
(`Pattern.matchesItself_of_isWildcardName`).
-/

namespace AccessPolicy

open AccessPolicy.Text

namespace Glob

theorem partsPlain_wildParts (cs : List Char) : partsPlain (wildParts cs) = true := by
  fun_induction wildParts cs <;> simp_all [partsPlain, Part.isPlain]

/-- Any character of its kind makes a stretch. -/
theorem allBetween_one {p : Char → Bool} {name : List Char} {i : Nat} {c : Char}
    (hc : name[i]? = some c) (hp : p c = true) : AllBetween p name i (i + 1) :=
  allBetween_head.2 (.inr ⟨⟨c, hc, hp⟩, .refl p (i + 1)⟩)

/-- The parts of a text cover the characters that write them, whatever is in front. -/
theorem coversAll_wildParts (front cs : List Char) :
    CoversAll (front ++ cs) (wildParts cs) front.length (front ++ cs).length := by
  fun_induction wildParts cs generalizing front with
  | case1 cs ih =>
    have first : (front ++ '*' :: '*' :: cs)[front.length]? = some '*' := by simp
    have second : (front ++ '*' :: '*' :: cs)[front.length + 1]? = some '*' := by
      rw [List.getElem?_append_right (by omega)]
      simp
    have stretch : AllBetween isPathChar (front ++ '*' :: '*' :: cs) front.length
        (front.length + 2) :=
      allBetween_head.2 (.inr ⟨⟨'*', first, rfl⟩, allBetween_one second rfl⟩)
    refine .cons (.globstar stretch fun _ => by omega) ?_
    simpa using ih (front ++ ['*', '*'])
  | case2 cs hstar ih =>
    have first : (front ++ '*' :: cs)[front.length]? = some '*' := by simp
    refine .cons (.star (allBetween_one first rfl) fun _ => by omega) ?_
    simpa using ih (front ++ ['*'])
  | case3 cs ih =>
    have first : (front ++ '?' :: cs)[front.length]? = some '?' := by simp
    refine .cons (.single first rfl) ?_
    simpa using ih (front ++ ['?'])
  | case4 c cs _ hstar hsingle ih =>
    have first : (front ++ c :: cs)[front.length]? = some c := by simp
    refine .cons (.char first) ?_
    simpa using ih (front ++ [c])
  | case5 => simp

end Glob

namespace Pattern

/-- The text of the pattern is a name that the pattern matches. -/
def MatchesItself (source : String) : Prop :=
  ∃ p, compile? source = .ok p ∧ p.isMatch source = true

/-- Every character of the text stands for itself or belongs to a wildcard, and as a
pattern the text loses nothing from its ends. -/
def isWildcardName (text : String) : Bool :=
  text.toList.all Glob.isWild && text.toList.head?.any (fun c => !isBlank c) &&
    text.toList.getLast?.any fun c => !isBlank c && c != '$'

/-- A pattern of ordinary characters and wildcards matches its own text. -/
theorem matchesItself_of_isWildcardName {source : String} (h : isWildcardName source = true)
    (hc : Compiles source) : MatchesItself source := by
  simp only [isWildcardName, Bool.and_eq_true] at h
  obtain ⟨⟨wild, front⟩, back⟩ := h
  obtain ⟨p, hp⟩ := hc
  have parsed : Glob.ofPattern? p.source = .ok (Glob.wildParts source.toList) := by
    rw [source_of_compile? hp]
    exact Glob.ofPattern?_wild wild front back
  have means := Glob.sequence_means (Glob.ofPattern?_formed parsed)
    (Glob.partsPlain_wildParts source.toList) .other
  refine ⟨p, hp, ?_⟩
  rw [p.isMatch_iff_spells parsed means.readable.whole,
    means.spells _ _ _ Glob.endingAt_zero]
  exact Glob.coversAll_wildParts [] source.toList

end Pattern

end AccessPolicy
