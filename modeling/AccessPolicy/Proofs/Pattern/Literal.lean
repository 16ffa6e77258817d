import AccessPolicy.Proofs.Pattern.Meaning
import AccessPolicy.Proofs.Text.Trimmed
import Mathlib.Tactic.ByContra

/-!
# Names as patterns

A name stands for itself as a pattern when none of its characters is an operator
of globs and nothing is dropped from its ends: no blank stands there, and no `$`
at the back (`Pattern.isPlainName`). Such a name compiles, however long it is, and
what it compiles to matches the name and no other (`Pattern.compile?_plainName`).

The way is the one that every pattern takes: the name is cut into one token for
each character (`Glob.scan_bare`), read as that many parts
(`Glob.ofPattern?_plainName`), written one after the other
(`Glob.sequence_chars`), and read back as an expression that takes these
characters in a row (`Regex.matchesAll_chars`). Reading goes the same way when
wildcards stand between the characters (`Glob.ofPattern?_wild`).
-/

namespace AccessPolicy

open AccessPolicy.Text

namespace Glob

/-- The character stands for itself outside of groups, and in front of anything. -/
def isBare (c : Char) : Bool := isLiteral c && c != '\x7d'

/-- The token of a character that stands for itself. -/
def bareToken (c : Char) : Token := if c = ',' then .comma else .char c

/-! ## Reading -/

theorem scan_bare {c : Char} (h : isBare c = true) (offset : Nat) (cs : List Char) :
    ∃ later, scan none offset (c :: cs) = bareToken c :: scan none later cs := by
  simp only [isBare, isLiteral, Bool.and_eq_true, bne_iff_ne] at h
  obtain ⟨⟨⟨⟨⟨⟨⟨⟨⟨hback, hset⟩, hopen⟩, hclose⟩, hbar⟩, hstar⟩, hsingle⟩, hbrace⟩, -⟩, hend⟩ := h
  by_cases hcomma : c = ','
  · subst hcomma
    exact ⟨offset + 1, rfl⟩
  · refine ⟨offset + c.utf8Size, ?_⟩
    rw [bareToken, if_neg hcomma, scan.eq_def]
    split <;> simp_all

/-- Outside of groups the token of a bare character is read as that character. -/
theorem step_bareToken {c : Char} (h : isBare c = true) {r : Reader}
    (hr : r.current.scope = .top) : r.step (bareToken c) = .ok (r.push (.char c)) := by
  unfold bareToken
  by_cases hcomma : c = ','
  · subst hcomma
    rw [if_pos rfl, Reader.step.eq_def]
    simp [hr]
  · have hcaret : c ≠ '^' := by
      rintro rfl
      exact absurd h (by decide)
    rw [if_neg hcomma]
    simp [Reader.step, partOfChar, hcaret]

/-- The character stands for itself or belongs to a wildcard. -/
def isWild (c : Char) : Bool := isBare c || c == '*' || c == '?'

/-- The parts of a text of such characters. -/
def wildParts : List Char → List Part
  | '*' :: '*' :: cs => .globstar :: wildParts cs
  | '*' :: cs => .star :: wildParts cs
  | '?' :: cs => .single :: wildParts cs
  | c :: cs => .char c :: wildParts cs
  | [] => []

/-- Bare characters are parts as they are. -/
theorem wildParts_bare {cs : List Char} (h : ∀ c ∈ cs, isBare c = true) :
    wildParts cs = cs.map Part.char := by
  fun_induction wildParts cs with
  | case1 cs ih => exact absurd (h '*' List.mem_cons_self) (by decide)
  | case2 cs _ ih => exact absurd (h '*' List.mem_cons_self) (by decide)
  | case3 cs ih => exact absurd (h '?' List.mem_cons_self) (by decide)
  | case4 c cs _ _ _ ih => rw [ih fun d hd => h d (List.mem_cons_of_mem c hd), List.map_cons]
  | case5 => rfl

theorem scan_star {cs : List Char} (h : ∀ rest, cs ≠ '*' :: rest) (offset : Nat) :
    scan none offset ('*' :: cs) = .star :: scan none (offset + 1) cs := by
  rw [scan.eq_def]
  simp

/-- Appends several parts. -/
def Reader.pushAll (r : Reader) (parts : List Part) : Reader :=
  ⟨r.enclosing, r.current.scope, r.current.done, parts.reverse ++ r.current.parts⟩

@[simp] theorem Reader.scope_push (r : Reader) (part : Part) :
    (r.push part).current.scope = r.current.scope := rfl

theorem Reader.pushAll_push (r : Reader) (part : Part) (parts : List Part) :
    (r.push part).pushAll parts = r.pushAll (part :: parts) := by
  simp [pushAll, push, OpenGroup.push]

/-- A text of ordinary characters and wildcards is read as its parts. -/
theorem run_scan_wild {cs : List Char} (h : ∀ c ∈ cs, isWild c = true) (offset : Nat)
    {r : Reader} (hr : r.current.scope = .top) :
    r.run (scan none offset cs) = .ok (r.pushAll (wildParts cs)) := by
  fun_induction wildParts cs generalizing offset r with
  | case1 cs ih =>
    obtain ⟨_, _, hcs⟩ : _ ∧ _ ∧ _ := by simpa only [List.forall_mem_cons] using h
    show (r.push .globstar).run (scan none (offset + 2) cs) = _
    rw [ih hcs _ ((r.scope_push _).trans hr), Reader.pushAll_push]
  | case2 cs hstar ih =>
    obtain ⟨_, hcs⟩ := List.forall_mem_cons.1 h
    rw [scan_star hstar]
    show (r.push .star).run (scan none (offset + 1) cs) = _
    rw [ih hcs _ ((r.scope_push _).trans hr), Reader.pushAll_push]
  | case3 cs ih =>
    obtain ⟨_, hcs⟩ := List.forall_mem_cons.1 h
    show (r.push .single).run (scan none (offset + 1) cs) = _
    rw [ih hcs _ ((r.scope_push _).trans hr), Reader.pushAll_push]
  | case4 c cs _ hstar hsingle ih =>
    obtain ⟨hc, hcs⟩ := List.forall_mem_cons.1 h
    have bare : isBare c = true := by
      simpa [isWild, show c ≠ '*' from hstar, show c ≠ '?' from hsingle] using hc
    obtain ⟨later, hscan⟩ := scan_bare bare offset cs
    rw [hscan, Reader.run, step_bareToken bare hr]
    show (r.push (.char c)).run (scan none later cs) = _
    rw [ih hcs _ ((r.scope_push _).trans hr), Reader.pushAll_push]
  | case5 => rfl

/-! ### The ends -/

/-- An anchor is dropped from the end only where a `$` stands. -/
theorem dropEndAnchor_eq_self {glob : List Char} (h : ∀ c, glob.getLast? = some c → c ≠ '$') :
    dropEndAnchor glob = glob := by
  unfold dropEndAnchor
  split
  · rename_i rest hrev
    have last : glob.getLast? = some '$' := by
      rw [← List.head?_reverse, hrev, List.head?_cons]
    exact absurd rfl (h '$' last)
  · rfl

theorem tokens_wild {cs : List Char} (h : ∀ c ∈ cs, isWild c = true)
    (hback : ∀ c, cs.getLast? = some c → c ≠ '$') (offset : Nat) :
    tokens offset cs = scan none offset cs := by
  unfold tokens
  rw [dropEndAnchor_eq_self hback]
  split
  · exact absurd (h '^' List.mem_cons_self) (by decide)
  · rfl

/-- A pattern of ordinary characters and wildcards is read as its parts when nothing is
dropped from its ends. -/
theorem ofPattern?_wild {source : String} (h : source.toList.all isWild = true)
    (hfront : source.toList.head?.any (fun c => !isBlank c) = true)
    (hback : source.toList.getLast?.any (fun c => !isBlank c && c != '$') = true) :
    ofPattern? source = .ok (wildParts source.toList) := by
  obtain ⟨first, hfirst, hblank⟩ := (Option.any_eq_true _ _).1 hfront
  obtain ⟨last, hlast, hends⟩ := (Option.any_eq_true _ _).1 hback
  simp only [Bool.and_eq_true, Bool.not_eq_true', bne_iff_ne] at hblank hends
  have trimmed : IsTrimmed source.toList :=
    ⟨fun c hc => Option.some.inj (hfirst.symm.trans hc) ▸ hblank,
      fun c hc => Option.some.inj (hlast.symm.trans hc) ▸ hends.1⟩
  have unanchored : ∀ c, source.toList.getLast? = some c → c ≠ '$' :=
    fun c hc => Option.some.inj (hlast.symm.trans hc) ▸ hends.2
  have nonempty : source.toList.isEmpty = false := by
    cases hsource : source.toList with
    | nil => simp [hsource] at hfirst
    | cons c cs => rfl
  have wild := List.all_eq_true.1 h
  simp only [ofPattern?, trimChars_eq_self trimmed, nonempty, tokens_wild wild unanchored,
    ofTokens?, run_scan_wild wild _ (r := Reader.start) rfl]
  simp [Reader.pushAll, Reader.start, OpenGroup.start]

end Glob

/-- Every character of the name stands for itself, and as a pattern the name loses
nothing from its ends. -/
def Pattern.isPlainName (name : String) : Bool :=
  name.toList.all Glob.isBare && name.toList.head?.any (fun c => !isBlank c) &&
    name.toList.getLast?.any fun c => !isBlank c && c != '$'

namespace Glob

open Pattern (isPlainName)

theorem isBare_of_isPlainName {name : String} (h : isPlainName name = true) :
    ∀ c ∈ name.toList, isBare c = true := by
  simp only [isPlainName, Bool.and_eq_true] at h
  exact List.all_eq_true.1 h.1.1

/-- A plain name is read as its characters. -/
theorem ofPattern?_plainName {name : String} (h : isPlainName name = true) :
    ofPattern? name = .ok (name.toList.map Part.char) := by
  have bare := isBare_of_isPlainName h
  have wild : name.toList.all isWild = true :=
    List.all_eq_true.2 fun c hc => by simp [isWild, bare c hc]
  simp only [isPlainName, Bool.and_eq_true] at h
  rw [ofPattern?_wild wild h.1.2 h.2, wildParts_bare bare]

/-! ## Writing -/

/-- Characters are written one behind the other. -/
theorem foldl_extend_chars (cs : List Char) {run : Run} {written : List Char} {e : Ending}
    (hrun : run.last = .ending written e) :
    ((writings (cs.map Part.char)).foldl Run.extend run).toFragment.whole =
      run.head ++ written ++ cs.flatMap charText := by
  -- the last piece always ends in one way, so it is never written twice
  induction cs generalizing run written e with
  | nil => simp [writings, Run.toFragment, Fragment.prepend, hrun]; cases e <;> rfl
  | cons c cs ih =>
    rw [List.map_cons, writings, List.foldl_cons]
    have step : run.extend (Part.char c).writing =
        ⟨run.head ++ written, .ending (charText c) (endingOf c)⟩ := by
      rw [Run.extend, hrun]
      cases e <;> rfl
    rw [step, ih rfl, List.flatMap_cons]
    simp

theorem sequence_chars (cs : List Char) :
    (sequence .other (writings (cs.map Part.char))).whole = cs.flatMap charText := by
  have start : (Run.start .other).last = .ending [] .other := rfl
  exact foldl_extend_chars cs start

end Glob

namespace Regex

/-- The expression of one character. -/
def ofChar (c : Char) : Regex := .set (.single c)

theorem writes_chars {cs : List Char} (h : ∀ c ∈ cs, Glob.isLiteral c = true) :
    Writes (cs.flatMap Glob.charText) (cs.map ofChar) := by
  induction cs with
  | nil => exact .nil
  | cons c cs ih =>
    rw [List.forall_mem_cons] at h
    rw [List.flatMap_cons, List.map_cons, ← List.singleton_append]
    exact (Glob.writes_charText h.1).append (ih h.2)

/-- Characters in a row match themselves up to the end of a text. -/
theorem matchesAll_chars {text : List Char} (cs : List Char) {i : Nat} (hi : i ≤ text.length) :
    MatchesAll text (cs.map ofChar) i text.length ↔ text.drop i = cs := by
  induction cs generalizing i with
  | nil =>
    rw [List.map_nil, matchesAll_nil, List.drop_eq_nil_iff]
    omega
  | cons c cs ih =>
    rw [List.map_cons, matchesAll_cons]
    constructor
    · rintro ⟨k, hc, hcs⟩
      obtain ⟨rfl, d, hd, hdc⟩ := matches_set.1 hc
      obtain ⟨hlt, hget⟩ := List.getElem?_eq_some_iff.1 hd
      have same : d = c := by simpa [CharSet.contains] using hdc
      rw [List.drop_eq_getElem_cons hlt, hget, same, (ih hlt).1 hcs]
    · intro h
      have hlt : i < text.length := by
        by_contra hge
        rw [List.drop_eq_nil_iff.2 (Nat.le_of_not_lt hge)] at h
        exact List.cons_ne_nil _ _ h.symm
      rw [List.drop_eq_getElem_cons hlt, List.cons.injEq] at h
      refine ⟨i + 1, matches_set.2 ⟨rfl, c, ?_, by simp [CharSet.contains]⟩, (ih hlt).2 h.2⟩
      rw [List.getElem?_eq_getElem hlt, h.1]

end Regex

namespace Pattern

/-- A plain name compiles, and matches itself and no other name. -/
theorem compile?_plainName {source : String} (h : isPlainName source = true) :
    ∃ p, compile? source = .ok p ∧ ∀ name : String, p.isMatch name = true ↔ name = source := by
  have translated : Glob.translate? source =
      .ok (['^'] ++ source.toList.flatMap Glob.charText ++ ['$']) := by
    rw [Glob.translate?, Glob.ofPattern?_plainName h, ← Glob.sequence_chars]
    rfl
  have literal : ∀ c ∈ source.toList, Glob.isLiteral c = true := by
    intro c hc
    have bare := Glob.isBare_of_isPlainName h c hc
    rw [Glob.isBare, Bool.and_eq_true] at bare
    exact bare.1
  have writes := (Regex.writes_chars literal).anchored
  have flat : ∀ r ∈ [.assert .textStart] ++ source.toList.map Regex.ofChar ++
      [.assert .textEnd], r.depth ≤ 0 := by
    intro r hr
    simp only [List.mem_append, List.mem_singleton, List.mem_map] at hr
    rcases hr with (rfl | ⟨c, _, rfl⟩) | rfl <;> exact Nat.le_refl 0
  obtain ⟨p, hp, _, hregex⟩ := exists_compile? translated
    (writes.read? (writes.withinNestLimit (by decide) flat))
  refine ⟨p, hp, fun name => ?_⟩
  rw [isMatch_iff, hregex, Regex.found_anchored, Regex.matchesAll_chars _ (Nat.zero_le _),
    List.drop_zero, String.toList_inj]

end Pattern

end AccessPolicy
