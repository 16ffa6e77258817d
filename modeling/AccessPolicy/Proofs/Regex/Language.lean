import AccessPolicy.Proofs.Regex.Written
import Mathlib.Data.Set.Basic

/-!
# Languages of written expressions

The language of a written expression is the set of texts that it matches from end to end
(`language`). A piece of an expression matches between two positions of a name, and what it
matches there may depend on what stands around them, but only through assertions: without
one it matches behind any text what it matches at the front (`WritesLocal.spells_behind`).
So the language of such a piece tells all of its matches. Texts without assertions can be
put in a row and be joined to a choice (`WritesLocal.append`, `WritesLocal.choice`).
-/

namespace AccessPolicy.Regex

variable {text : List Char}

/-! ## Expressions without assertions -/

/-- Whether there is no assertion in the expression. -/
def isLocal : Regex → Bool
  | empty | set _ => true
  | assert _ => false
  | group body | star body | plus body | opt body => body.isLocal
  | cat first second | alt first second => first.isLocal && second.isLocal

/-- Parts are joined, two at a time, to an expression without assertions. -/
theorem isLocal_joined {join : List Regex → Regex} (hnil : (join []).isLocal = true)
    (hone : ∀ r, join [r] = r)
    (hcons : ∀ r s rs, (join (r :: s :: rs)).isLocal = (r.isLocal && (join (s :: rs)).isLocal))
    {rs : List Regex} (h : ∀ r ∈ rs, r.isLocal = true) : (join rs).isLocal = true := by
  induction rs with
  | nil => exact hnil
  | cons r rs ih =>
    rw [List.forall_mem_cons] at h
    cases rs with
    | nil => exact (hone r).symm ▸ h.1
    | cons s rs => rw [hcons, h.1, ih h.2, Bool.and_true]

theorem isLocal_catAll {rs : List Regex} (h : ∀ r ∈ rs, r.isLocal = true) :
    (catAll rs).isLocal = true :=
  isLocal_joined rfl (fun _ => rfl) (fun _ _ _ => rfl) h

theorem isLocal_altAll {rs : List Regex} (h : ∀ r ∈ rs, r.isLocal = true) :
    (altAll rs).isLocal = true :=
  isLocal_joined rfl (fun _ => rfl) (fun _ _ _ => rfl) h

theorem getElem?_behind (before text : List Char) (i : Nat) :
    (before ++ text)[before.length + i]? = text[i]? := by
  rw [List.getElem?_append_right (Nat.le_add_right _ _), Nat.add_sub_cancel_left]

/-- What is matched in a text is matched behind another. -/
theorem Matches.behind {r : Regex} {i j : Nat} (h : Matches text r i j) (hr : r.isLocal = true)
    (before : List Char) :
    Matches (before ++ text) r (before.length + i) (before.length + j) := by
  induction h with
  | empty => exact .empty
  | set hc hs => exact .set ((getElem?_behind _ _ _).trans hc) hs
  | assert _ _ => cases hr
  | group _ ih => exact .group (ih hr)
  | cat _ _ ihr ihs =>
    obtain ⟨hr, hs⟩ := Bool.and_eq_true_iff.1 hr
    exact .cat (ihr hr) (ihs hs)
  | altLeft _ ih => exact .altLeft (ih (Bool.and_eq_true_iff.1 hr).1)
  | altRight _ ih => exact .altRight (ih (Bool.and_eq_true_iff.1 hr).2)
  | starNil => exact .starNil
  | starCons _ _ ihr ihs => exact .starCons (ihr hr) (ihs hr)
  | plus _ _ ihr ihs => exact .plus (ihr hr) (ihs hr)
  | optNil => exact .optNil
  | optSome _ ih => exact .optSome (ih hr)

/-- A match that begins behind a text is a match in the rest. -/
theorem Matches.of_behind {r : Regex} {before : List Char} {m n i : Nat}
    (h : Matches (before ++ text) r m n) (hr : r.isLocal = true) (hm : m = before.length + i) :
    ∃ j, n = before.length + j ∧ Matches text r i j := by
  induction h generalizing i with
  | empty => exact ⟨i, hm, .empty⟩
  | set hc hs =>
    subst hm
    exact ⟨i + 1, rfl, .set ((getElem?_behind _ _ _).symm.trans hc) hs⟩
  | assert _ _ => cases hr
  | group _ ih =>
    obtain ⟨j, hn, hj⟩ := ih hr hm
    exact ⟨j, hn, .group hj⟩
  | cat _ _ ihr ihs =>
    obtain ⟨hr, hs⟩ := Bool.and_eq_true_iff.1 hr
    obtain ⟨k, hmid, hk⟩ := ihr hr hm
    obtain ⟨j, hn, hj⟩ := ihs hs hmid
    exact ⟨j, hn, .cat hk hj⟩
  | altLeft _ ih =>
    obtain ⟨j, hn, hj⟩ := ih (Bool.and_eq_true_iff.1 hr).1 hm
    exact ⟨j, hn, .altLeft hj⟩
  | altRight _ ih =>
    obtain ⟨j, hn, hj⟩ := ih (Bool.and_eq_true_iff.1 hr).2 hm
    exact ⟨j, hn, .altRight hj⟩
  | starNil => exact ⟨i, hm, .starNil⟩
  | starCons _ _ ihr ihs =>
    obtain ⟨k, hmid, hk⟩ := ihr hr hm
    obtain ⟨j, hn, hj⟩ := ihs hr hmid
    exact ⟨j, hn, .starCons hk hj⟩
  | plus _ _ ihr ihs =>
    obtain ⟨k, hmid, hk⟩ := ihr hr hm
    obtain ⟨j, hn, hj⟩ := ihs hr hmid
    exact ⟨j, hn, .plus hk hj⟩
  | optNil => exact ⟨i, hm, .optNil⟩
  | optSome _ ih =>
    obtain ⟨j, hn, hj⟩ := ih hr hm
    exact ⟨j, hn, .optSome hj⟩

theorem matches_behind {r : Regex} (hr : r.isLocal = true) (before : List Char) {i j : Nat} :
    Matches (before ++ text) r (before.length + i) (before.length + j) ↔ Matches text r i j := by
  refine ⟨fun h => ?_, fun h => h.behind hr before⟩
  obtain ⟨k, hk, h⟩ := h.of_behind hr rfl
  exact Nat.add_left_cancel hk ▸ h

/-! ## Texts without assertions -/

/-- The text writes parts without assertions. -/
def WritesLocal (written : List Char) : Prop :=
  ∃ parts, Writes written parts ∧ ∀ r ∈ parts, r.isLocal = true

theorem Writes.writesLocal {written : List Char} {part : Regex} (h : Writes written [part])
    (hpart : part.isLocal = true) : WritesLocal written :=
  ⟨[part], h, List.forall_mem_singleton.2 hpart⟩

namespace WritesLocal

variable {v w written : List Char}

theorem readable (h : WritesLocal written) : Readable written := by
  obtain ⟨parts, hparts, _⟩ := h
  exact ⟨parts, hparts⟩

theorem nil : WritesLocal [] := ⟨[], .nil, List.forall_mem_nil _⟩

theorem append (hv : WritesLocal v) (hw : WritesLocal w) : WritesLocal (v ++ w) := by
  obtain ⟨rs, hrs, hv⟩ := hv
  obtain ⟨ss, hss, hw⟩ := hw
  exact ⟨rs ++ ss, hrs.append hss, List.forall_mem_append.2 ⟨hv, hw⟩⟩

theorem exists_branches {ws : List (List Char)} (h : ∀ w ∈ ws, WritesLocal w) :
    ∃ branches, List.Forall₂ Writes ws branches ∧
      ∀ parts ∈ branches, ∀ r ∈ parts, r.isLocal = true := by
  induction ws with
  | nil => exact ⟨[], .nil, List.forall_mem_nil _⟩
  | cons w ws ih =>
    rw [List.forall_mem_cons] at h
    obtain ⟨parts, hw, hparts⟩ := h.1
    obtain ⟨branches, hws, hbranches⟩ := ih h.2
    exact ⟨parts :: branches, .cons hw hws, List.forall_mem_cons.2 ⟨hparts, hbranches⟩⟩

theorem choice {opening : List Char} {ws : List (List Char)} (hne : ws ≠ [])
    (hopen : opening = ['('] ∨ opening = "(?:".toList) (h : ∀ w ∈ ws, WritesLocal w) :
    WritesLocal (opening ++ ['|'].intercalate ws ++ [')']) := by
  obtain ⟨branches, hws, hbranches⟩ := exists_branches h
  refine (writes_choice hne hopen hws).writesLocal ?_
  refine isLocal_altAll fun r hr => ?_
  obtain ⟨parts, hparts, rfl⟩ := List.mem_map.1 hr
  exact isLocal_catAll (hbranches parts hparts)

theorem optional {body : List Char} (h : WritesLocal body) :
    WritesLocal ("(?:".toList ++ body ++ [')'] ++ ['?']) := by
  obtain ⟨parts, hparts, hlocal⟩ := h
  exact (Writes.optional (opens_uncaptured body) (.single hparts)).writesLocal
    (isLocal_catAll hlocal)

/-- What stands before a text has no influence on what is matched in it. -/
theorem spells_behind (h : WritesLocal written) (before : List Char) {i j : Nat} :
    Spells (before ++ text) written (before.length + i) (before.length + j) ↔
      Spells text written i j := by
  obtain ⟨parts, hparts, hlocal⟩ := h
  simp only [hparts.spells_iff, ← matches_catAll]
  exact matches_behind (isLocal_catAll hlocal) before

end WritesLocal

/-! ## Languages -/

/-- The texts that a written expression matches from end to end, however deep it nests. -/
def language (written : List Char) : Set (List Char) :=
  {text | ∃ ts r, tokens? 0 written = some ts ∧ ofTokens? ts = some r ∧
    Matches text r 0 text.length}

/-- An expression that is read matches the texts of its language. -/
theorem mem_language_of_read? {written : List Char} {r : Regex} (h : read? written = some r) :
    text ∈ language written ↔ Matches text r 0 text.length := by
  simp only [read?, Option.bind_eq_bind, Option.bind_eq_some_iff] at h
  obtain ⟨ts, hts, s, hs, hlimit⟩ := h
  obtain rfl : s = r := Option.some.inj (Option.ite_none_right_eq_some.1 hlimit).2
  simp [language, hts, hs]

theorem Writes.mem_language {written : List Char} {parts : List Regex}
    (h : Writes written parts) :
    text ∈ language written ↔ MatchesAll text parts 0 text.length := by
  obtain ⟨ts, hts, hwhole⟩ := h.exists_tokens
  simp [language, hts, hwhole, matches_catAll]

theorem Readable.mem_language {written : List Char} (h : Readable written) :
    text ∈ language written ↔ Spells text written 0 text.length := by
  obtain ⟨parts, hparts⟩ := h
  rw [hparts.mem_language, hparts.spells_iff]

/-- The language of a set holds its characters. -/
theorem Writes.mem_language_set {written : List Char} {s : CharSet}
    (h : Writes written [.set s]) :
    text ∈ language written ↔ ∃ c, text = [c] ∧ s.contains c = true := by
  rw [h.mem_language, matchesAll_singleton, matches_set]
  constructor
  · rintro ⟨hlength, c, hc, hs⟩
    obtain ⟨d, rfl⟩ := List.length_eq_one_iff.1 hlength
    exact ⟨d, rfl, Option.some.inj hc ▸ hs⟩
  · rintro ⟨c, rfl, hs⟩
    exact ⟨rfl, c, rfl, hs⟩

end AccessPolicy.Regex
