import AccessPolicy.Glob.Fragment

/-!
# Compiled patterns

A pattern is the text of a glob. A compiled pattern holds the text together
with the expression it stands for, and the evidence that one comes from the
other; so there is at most one compiled form of a text (`Pattern.ext_source`).
-/

namespace AccessPolicy

/-- A pattern with its expression, written and read. -/
structure Pattern where
  source : String
  written : List Char
  regex : Regex
  translated : Glob.translate? source = .ok written
  readable : Regex.read? written = some regex

namespace Pattern

/-- A pattern has one compiled form. -/
theorem ext_source {p q : Pattern} (h : p.source = q.source) : p = q := by
  obtain ⟨source, written, regex, translated, readable⟩ := p
  obtain ⟨source', written', regex', translated', readable'⟩ := q
  subst h
  have hw : written = written' := by
    have := translated.symm.trans translated'
    injection this
  subst hw
  have hr : regex = regex' := by
    have := readable.symm.trans readable'
    injection this
  subst hr
  rfl

/-- Compiles a pattern. -/
def compile? (source : String) : Except PatternError Pattern :=
  match translated : Glob.translate? source with
  | .error e => .error e
  | .ok written =>
    match readable : Regex.read? written with
    | none => .error (.unreadable source)
    | some regex => .ok ⟨source, written, regex, translated, readable⟩

/-- Whether a name matches. -/
def isMatch (p : Pattern) (name : String) : Bool :=
  p.regex.isFound name.toList

/-- The expression as text. -/
def expression (p : Pattern) : String :=
  String.ofList p.written

/-- A compiled pattern keeps the text it was compiled from. -/
theorem source_of_compile? {source : String} {p : Pattern} (h : compile? source = .ok p) :
    p.source = source := by
  unfold compile? at h
  split at h
  · simp at h
  · split at h
    · simp at h
    · injection h with h
      rw [← h]

/-- Compiling a compiled pattern's text gives it back. -/
theorem compile?_source (p : Pattern) : compile? p.source = .ok p := by
  have ok : ∃ q, compile? p.source = .ok q := by
    unfold compile?
    split
    · rename_i h
      rw [p.translated] at h
      simp at h
    · rename_i written h
      have hw : written = p.written := by
        have := h.symm.trans p.translated
        injection this
      subst hw
      split
      · rename_i hn
        rw [p.readable] at hn
        simp at hn
      · exact ⟨_, rfl⟩
  obtain ⟨q, hq⟩ := ok
  rw [hq, ext_source (source_of_compile? hq)]

end Pattern

end AccessPolicy
