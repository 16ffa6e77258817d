import Mathlib.Data.List.Induction
import Mathlib.Data.List.TakeWhile
import AccessPolicy.Proofs.Regex.Written

/-!
# Backslashes at the end of a written expression

Whether the last character of a text is escaped is decided by counting the
backslashes before it, from the right. The tokens are cut from the left, and
sets, names and numbers take several characters at once. The two agree: no token
ends inside an escape, so a `$` behind an even run of backslashes is cut off as
the end of the text (`tokens?_textEnd`), and one behind an odd run is not.
-/

namespace AccessPolicy.Regex

open AccessPolicy.Text

/-- Whether a backslash waits for the character it escapes behind a text, given
whether one waits in front of it. -/
def waits : Bool → List Char → Bool
  | waiting, [] => waiting
  | true, _ :: cs => waits false cs
  | false, c :: cs => waits (c == '\\') cs

/-- Whether a text escapes the character that follows it. -/
def escapesNext (text : List Char) : Bool := waits false text

theorem waits_append (waiting : Bool) (v w : List Char) :
    waits waiting (v ++ w) = waits (waits waiting v) w := by
  induction v generalizing waiting with
  | nil => rw [List.nil_append, waits]
  | cons c cs ih => cases waiting <;> exact ih _

/-- A backslash behind a text waits unless it is escaped itself. -/
theorem waits_concat (waiting : Bool) (cs : List Char) (c : Char) :
    waits waiting (cs ++ [c]) = (!waits waiting cs && c == '\\') := by
  rw [waits_append]
  cases waits waiting cs <;> simp [waits]

theorem escapesNext_append {v : List Char} (hv : escapesNext v = false) (w : List Char) :
    escapesNext (v ++ w) = escapesNext w := by
  rw [escapesNext, waits_append]
  exact congrArg (waits · w) hv

/-- A text escapes the next character when it ends in an odd run of backslashes. -/
theorem escapesNext_iff (text : List Char) :
    escapesNext text = true ↔ (text.reverse.takeWhile (· == '\\')).length % 2 = 1 := by
  induction text using List.reverseRecOn with
  | nil => simp [escapesNext, waits]
  | append_singleton cs c ih =>
    rw [escapesNext, waits_concat, List.reverse_concat, List.takeWhile_cons]
    by_cases hc : c = '\\'
    · rw [escapesNext] at ih
      simp only [hc, beq_self_eq_true, Bool.and_true, if_true, List.length_cons,
        Bool.not_eq_true', ← Bool.not_eq_true, ih]
      omega
    · simp [hc]

/-- The character is no backslash and not the sign for the end of the text. -/
def isBare (c : Char) : Bool := c != '\\' && c != '$'

/-- What neither a backslash nor a dollar sign satisfies is satisfied by bare
characters only. -/
theorem isBare_of {P : Char → Prop} (hbackslash : ¬ P '\\') (hdollar : ¬ P '$') {c : Char}
    (h : P c) : isBare c = true := by
  have backslash : c ≠ '\\' := fun hc => hbackslash (hc ▸ h)
  have dollar : c ≠ '$' := fun hc => hdollar (hc ▸ h)
  simp [isBare, backslash, dollar]

/-- Characters of which none is a backslash escape nothing. -/
theorem escapesNext_of_bare {text : List Char} (h : ∀ c ∈ text, isBare c = true) :
    escapesNext text = false := by
  induction text with
  | nil => rfl
  | cons c cs ih =>
    have hc : c ≠ '\\' := by
      have := h c List.mem_cons_self
      simp only [isBare, Bool.and_eq_true, bne_iff_ne] at this
      exact this.1
    have front : (c == '\\') = false := by simpa using hc
    show waits (c == '\\') cs = false
    rw [front]
    exact ih fun d hd => h d (List.mem_cons_of_mem _ hd)

namespace Token

/-! ## Numbers and names -/

/-- What an escape may have behind its first character: letters and digits, or a text in
braces. -/
def IsArgument (taken : List Char) : Prop :=
  (∀ c ∈ taken, c.isAlphanum = true) ∨ taken.head? = some '\x7b' ∧ ∀ c ∈ taken, isBare c = true

theorem isBare_of_alphanum {c : Char} (h : c.isAlphanum = true) : isBare c = true :=
  isBare_of (P := fun d => d.isAlphanum = true) (by decide) (by decide) h

theorem IsArgument.bare {taken : List Char} (h : IsArgument taken) :
    ∀ c ∈ taken, isBare c = true := by
  rcases h with halphanum | ⟨_, hbare⟩
  · exact fun c hc => isBare_of_alphanum (halphanum c hc)
  · exact hbare

theorem alphanum_of_hexValue? {c : Char} {n : Nat} (h : hexValue? c = some n) :
    c.isAlphanum = true := by
  have lower : 'a' ≤ c → c ≤ 'f' → c.isLower = true := fun ha hf =>
    Bool.and_eq_true_iff.2 ⟨decide_eq_true ha, decide_eq_true (Char.le_trans hf (by decide))⟩
  have upper : 'A' ≤ c → c ≤ 'F' → c.isUpper = true := fun ha hf =>
    decide_eq_true ⟨ha, Char.le_trans hf (by decide)⟩
  unfold hexValue? at h
  unfold Char.isAlphanum Char.isAlpha
  split at h
  · rename_i hdigit
    rw [hdigit, Bool.or_true]
  · split at h
    · rename_i hletter
      rw [Bool.and_eq_true, decide_eq_true_eq, decide_eq_true_eq] at hletter
      rw [lower hletter.1 hletter.2, Bool.or_true, Bool.true_or]
    · rename_i hletter
      obtain ⟨hletter, _⟩ := Option.ite_none_right_eq_some.1 h
      rw [Bool.and_eq_true, decide_eq_true_eq, decide_eq_true_eq] at hletter
      rw [upper hletter.1 hletter.2, Bool.true_or, Bool.true_or]

theorem alphanum_of_mapM_hexValue? {digits : List Char} {values : List Nat}
    (h : digits.mapM hexValue? = some values) : ∀ d ∈ digits, d.isAlphanum = true := by
  induction digits generalizing values with
  | nil => simp
  | cons d ds ih =>
    rw [List.mapM_cons] at h
    simp only [Option.bind_eq_bind, Option.bind_eq_some_iff] at h
    obtain ⟨n, hn, rest, hrest, _⟩ := h
    exact List.forall_mem_cons.2 ⟨alphanum_of_hexValue? hn, ih hrest⟩

theorem alphanum_of_charOfHex? {digits : List Char} {c : Char} (h : charOfHex? digits = some c) :
    ∀ d ∈ digits, d.isAlphanum = true := by
  unfold charOfHex? at h
  simp only [Option.bind_eq_bind, Option.bind_eq_some_iff] at h
  obtain ⟨values, hvalues, _⟩ := h
  exact alphanum_of_mapM_hexValue? hvalues

/-- A text, taken apart at the first character of one kind. -/
theorem takeWhile_stop {cs rest : List Char} {stop d : Char}
    (h : cs.dropWhile (· != stop) = d :: rest) :
    cs = cs.takeWhile (· != stop) ++ stop :: rest := by
  have parts := List.takeWhile_append_dropWhile (p := (· != stop)) (l := cs)
  have stops : (d != stop) = false := by
    have := List.head?_dropWhile_not (· != stop) cs
    simpa [h] using this
  have hd : d = stop := by simpa using stops
  rw [h, hd] at parts
  exact parts.symm

/-- A text in braces is taken from the front of a text. -/
theorem braced_takes {cs rest : List Char} {d : Char}
    (hd : cs.dropWhile (· != '\x7d') = d :: rest)
    (hbare : ∀ c ∈ cs.takeWhile (· != '\x7d'), isBare c = true) :
    ∃ taken, '\x7b' :: cs = taken ++ rest ∧ IsArgument taken := by
  refine ⟨'\x7b' :: (cs.takeWhile (· != '\x7d') ++ ['\x7d']), ?_, .inr ⟨rfl, ?_⟩⟩
  · have := takeWhile_stop hd
    simpa using this
  · intro c hc
    simp only [List.mem_cons, List.mem_append, List.not_mem_nil, or_false] at hc
    rcases hc with rfl | hc | rfl
    · rfl
    · exact hbare c hc
    · rfl

/-- A number is taken from the front of a text. -/
theorem readHex_takes {width : Nat} {cs rest : List Char} {c : Char}
    (h : readHex width cs = some (c, rest)) :
    ∃ taken, cs = taken ++ rest ∧ IsArgument taken := by
  unfold readHex at h
  split at h
  · rename_i cs
    split at h
    · simp at h
    · rename_i d tail hd
      split at h
      · simp at h
      · simp only [Option.map_eq_some_iff, Prod.mk.injEq] at h
        obtain ⟨_, hdigits, _, rfl⟩ := h
        exact braced_takes hd fun c hc => isBare_of_alphanum (alphanum_of_charOfHex? hdigits c hc)
  · split at h
    · simp only [Option.map_eq_some_iff, Prod.mk.injEq] at h
      obtain ⟨_, hdigits, _, rfl⟩ := h
      exact ⟨cs.take width, (List.take_append_drop width cs).symm,
        .inl (alphanum_of_charOfHex? hdigits)⟩
    · simp at h

/-- A character that the normal form of a name keeps. -/
theorem mem_normalName {name : List Char} {c : Char} (hc : c ∈ name) (hascii : c.toNat < 128)
    (hkept : (c == ' ' || c == '_' || c == '-') = false) (hlower : c.toLower = c)
    (hletters : c ≠ 'i' ∧ c ≠ 's') : c ∈ Category.normalName name := by
  have kept : c ∈ (name.filter fun c =>
      c.toNat < 128 && !(c == ' ' || c == '_' || c == '-')).map Char.toLower :=
    List.mem_map.2 ⟨c, List.mem_filter.2 ⟨hc, by simp [hascii, hkept]⟩, hlower⟩
  unfold Category.normalName
  simp only
  split
  · exact kept
  · rename_i rest _ hplain
    rw [hplain] at kept
    simpa [hletters.1, hletters.2] using kept
  · exact kept

/-- The normal form of a category's name is made of letters. -/
theorem normalName_alpha {name : List Char} {k : Category} (h : Category.ofName? name = some k) :
    (Category.normalName name).all Char.isAlpha = true := by
  have spelled : ∀ {s : String}, String.ofList (Category.normalName name) = s →
      Category.normalName name = s.toList := by
    intro s hs
    rw [← hs, String.toList_ofList]
  unfold Category.ofName? at h
  split at h
  case h_17 => simp at h
  all_goals
    rename_i hs
    rw [spelled hs]
    decide

theorem bare_of_ofName? {name : List Char} {k : Category} (h : Category.ofName? name = some k) :
    ∀ c ∈ name, isBare c = true := by
  have alpha := List.all_eq_true.1 (normalName_alpha h)
  -- either sign would stay in the normal form
  have backslash : '\\' ∉ name := fun hmem =>
    absurd (alpha _ (mem_normalName hmem (by decide) rfl rfl (by decide))) (by decide)
  have dollar : '$' ∉ name := fun hmem =>
    absurd (alpha _ (mem_normalName hmem (by decide) rfl rfl (by decide))) (by decide)
  exact fun c hc => isBare_of backslash dollar hc

/-- The normal form of a name of one character is its small letter, if it is kept at all. -/
theorem normalName_singleton (c : Char) :
    Category.normalName [c] = [] ∨ Category.normalName [c] = [c.toLower] := by
  unfold Category.normalName
  rw [List.filter_singleton]
  cases decide (c.toNat < 128) && !(c == ' ' || c == '_' || c == '-') with
  | false => exact .inl rfl
  | true => exact .inr (by simp)

/-- A name of one character is a letter. -/
theorem alphanum_of_ofName? {c : Char} {k : Category} (h : Category.ofName? [c] = some k) :
    c.isAlphanum = true := by
  have alpha := normalName_alpha h
  rcases normalName_singleton c with hnormal | hnormal
  · simp [Category.ofName?, hnormal] at h
  · rw [hnormal, List.all_cons, List.all_nil, Bool.and_true] at alpha
    unfold Char.isAlphanum
    by_cases hupper : c.val ≥ 'A'.val ∧ c.val ≤ 'Z'.val
    · have letter : c.isAlpha = true := Bool.or_eq_true_iff.2 (.inl (decide_eq_true hupper))
      rw [letter, Bool.true_or]
    · have kept : c.toLower = c := dif_neg hupper
      rw [kept] at alpha
      rw [alpha, Bool.true_or]

/-- A category is taken from the front of a text. -/
theorem readCategory_takes {cs rest : List Char} {k : Category}
    (h : readCategory cs = some (k, rest)) :
    ∃ taken, cs = taken ++ rest ∧ IsArgument taken := by
  unfold readCategory at h
  split at h
  · simp at h
  · rename_i cs
    split at h
    · simp at h
    · rename_i d tail hd
      simp only [Option.map_eq_some_iff, Prod.mk.injEq] at h
      obtain ⟨_, hname, _, rfl⟩ := h
      exact braced_takes hd (bare_of_ofName? hname)
  · rename_i c cs _
    simp only [Option.map_eq_some_iff, Prod.mk.injEq] at h
    obtain ⟨_, hname, _, rfl⟩ := h
    exact ⟨[c], rfl, .inl (List.forall_mem_singleton.2 (alphanum_of_ofName? hname))⟩

/-- Behind a backslash stands one character, with or without a number or a category. -/
theorem readEscape_cases {cs rest : List Char} {e : Escape}
    (h : readEscape cs = some (e, rest)) :
    ∃ c more, cs = c :: more ∧ (more = rest ∨ (∃ width d, readHex width more = some (d, rest)) ∨
      ∃ k, readCategory more = some (k, rest)) := by
  unfold readEscape at h
  split at h
  · simp at h
  · rename_i c more
    refine ⟨c, more, rfl, ?_⟩
    split at h
    case h_1 | h_2 | h_3 =>
      simp only [Option.map_eq_some_iff, Prod.mk.injEq, Prod.exists] at h
      obtain ⟨d, _, hread, _, rfl⟩ := h
      exact .inr (.inl ⟨_, d, hread⟩)
    case h_4 | h_5 =>
      simp only [Option.map_eq_some_iff, Prod.mk.injEq, Prod.exists] at h
      obtain ⟨k, _, hread, _, rfl⟩ := h
      exact .inr (.inr ⟨k, hread⟩)
    case h_24 =>
      obtain ⟨_, h⟩ := Option.ite_none_right_eq_some.1 h
      cases h
      exact .inl rfl
    all_goals
      cases h
      exact .inl rfl

/-- An escape is one character, and what it may have behind it. -/
theorem readEscape_takes {cs rest : List Char} {e : Escape}
    (h : readEscape cs = some (e, rest)) :
    ∃ c taken, cs = c :: (taken ++ rest) ∧ IsArgument taken := by
  obtain ⟨c, more, rfl, rfl | ⟨width, d, hread⟩ | ⟨k, hread⟩⟩ := readEscape_cases h
  · exact ⟨c, [], rfl, .inl (by simp)⟩
  · obtain ⟨taken, rfl, htaken⟩ := readHex_takes hread
    exact ⟨c, taken, rfl, htaken⟩
  · obtain ⟨taken, rfl, htaken⟩ := readCategory_takes hread
    exact ⟨c, taken, rfl, htaken⟩

/-! ## Inside brackets -/

/-- `rest` is left of a text when characters that escape nothing behind them are
taken from its front. -/
def Settles (cs rest : List Char) : Prop :=
  ∃ taken, cs = taken ++ rest ∧ escapesNext taken = false

theorem Settles.refl {cs : List Char} : Settles cs cs := ⟨[], by simp, by decide⟩

theorem Settles.trans {cs mid rest : List Char} (h : Settles cs mid) (h' : Settles mid rest) :
    Settles cs rest := by
  obtain ⟨v, hcs, hv⟩ := h
  obtain ⟨w, hmid, hw⟩ := h'
  refine ⟨v ++ w, by rw [hcs, hmid, List.append_assoc], ?_⟩
  rw [escapesNext_append hv, hw]

theorem Settles.of_bare {cs taken rest : List Char} (hcs : cs = taken ++ rest)
    (h : ∀ c ∈ taken, isBare c = true) : Settles cs rest :=
  ⟨taken, hcs, escapesNext_of_bare h⟩

/-- One character that is no backslash. -/
theorem Settles.cons {c : Char} {cs rest : List Char} (hc : c ≠ '\\') (h : Settles cs rest) :
    Settles (c :: cs) rest :=
  .trans ⟨[c], List.singleton_append.symm, by simpa [escapesNext, waits] using hc⟩ h

theorem settles_escape {cs rest : List Char} {e : Escape} (h : readEscape cs = some (e, rest)) :
    Settles ('\\' :: cs) rest := by
  obtain ⟨c, taken, hcs, htaken⟩ := readEscape_takes h
  have settled : escapesNext taken = false := escapesNext_of_bare htaken.bare
  exact ⟨'\\' :: c :: taken, by rw [hcs]; simp, settled⟩

theorem settles_end {cs rest : List Char} {e : Escape} (h : readEnd cs = some (e, rest)) :
    Settles cs rest := by
  unfold readEnd at h
  split at h
  · simp at h
  · exact settles_escape h
  · rename_i c cs hc
    simp only [Option.some.injEq, Prod.mk.injEq] at h
    rw [← h.2]
    exact .cons hc .refl

theorem settles_member {cs rest : List Char} {s : CharSet}
    (h : readMember cs = some (s, rest)) : Settles cs rest := by
  unfold readMember at h
  simp only [Option.bind_eq_bind, Option.bind_eq_some_iff, Prod.exists] at h
  obtain ⟨first, back, hfirst, h⟩ := h
  refine (settles_end hfirst).trans ?_
  split at h
  · rename_i c more
    split at h
    · simp only [Option.map_eq_some_iff, Prod.mk.injEq] at h
      obtain ⟨_, _, _, rfl⟩ := h
      exact .refl
    · simp only [Option.bind_eq_some_iff, Prod.exists, Option.map_eq_some_iff, Prod.mk.injEq] at h
      obtain ⟨last, tail, hlast, _, _, _, rfl⟩ := h
      exact .cons (by decide) (settles_end hlast)
  · simp only [Option.map_eq_some_iff, Prod.mk.injEq] at h
    obtain ⟨_, _, _, rfl⟩ := h
    exact .refl

/-- The name of a named set is some letters. -/
theorem alpha_of_ofAsciiName? {name : List Char} {p : Property}
    (h : Property.ofAsciiName? name = some p) : name ≠ [] ∧ name.all Char.isAlpha = true := by
  have spelled : ∀ {s : String}, String.ofList name = s → name = s.toList := by
    intro s hs
    rw [← hs, String.toList_ofList]
  unfold Property.ofAsciiName? at h
  split at h
  case h_15 => simp at h
  all_goals
    rename_i hs
    rw [spelled hs]
    decide

theorem bare_of_ofAsciiName? {name : List Char} {p : Property}
    (h : Property.ofAsciiName? name = some p) : ∀ c ∈ name, isBare c = true :=
  fun c hc => isBare_of (P := fun c => c.isAlpha = true) (by decide) (by decide)
    (List.all_eq_true.1 (alpha_of_ofAsciiName? h).2 c hc)

/-- The sign of a negated set. -/
theorem settles_caret (cs : List Char) :
    Settles cs (if (cs.head? == some '^') = true then cs.drop 1 else cs) := by
  cases cs with
  | nil => exact .refl
  | cons c cs =>
    by_cases hc : c = '^'
    · simpa [hc] using Settles.cons (by decide) .refl
    · simpa [hc] using Settles.refl

theorem settles_namedSet {cs rest : List Char} {s : CharSet}
    (h : readNamedSet cs = some (s, rest)) : Settles cs rest := by
  unfold readNamedSet at h
  split at h
  · rename_i cs
    refine .cons (by decide) ?_
    simp only at h
    refine (settles_caret cs).trans ?_
    generalize (if (cs.head? == some '^') = true then cs.drop 1 else cs) = body at h
    split at h
    · rename_i tail hd
      simp only [Option.map_eq_some_iff, Prod.mk.injEq] at h
      obtain ⟨_, hname, _, rfl⟩ := h
      have front : Settles body (':' :: ']' :: tail) :=
        .of_bare (takeWhile_stop hd) (bare_of_ofAsciiName? hname)
      exact front.trans (.cons (by decide) (.cons (by decide) .refl))
    · simp at h
  · simp at h

theorem settles_setOpen (cs : List Char) : Settles cs (readSetOpen cs).2 := by
  unfold readSetOpen
  simp only
  refine (settles_caret cs).trans ?_
  generalize (if (cs.head? == some '^') = true then cs.drop 1 else cs) = body
  have hyphens : Settles body (body.dropWhile (· == '-')) := by
    refine .of_bare List.takeWhile_append_dropWhile.symm fun c hc => ?_
    have hyphen := List.mem_takeWhile_imp hc
    rw [eq_of_beq hyphen]
    rfl
  split
  · rename_i rest _ hr
    rw [hr] at hyphens
    exact hyphens.trans (.cons (by decide) .refl)
  · exact hyphens

/-- Tokens inside brackets settle, and only a closing bracket goes a bracket up. -/
theorem settles_inSet {depth next : Nat} {cs rest : List Char} {ts : List Token}
    (h : readInSet depth cs = some (ts, next, rest)) :
    Settles cs rest ∧ (depth ≤ next ∨ cs = ']' :: rest) := by
  unfold readInSet at h
  split at h
  · rename_i cs
    split at h
    · rename_i s tail hn
      simp only [Option.some.injEq, Prod.mk.injEq] at h
      obtain ⟨_, rfl, rfl⟩ := h
      exact ⟨.cons (by decide) (settles_namedSet hn), .inl (Nat.le_refl _)⟩
    · simp only [Option.some.injEq, Prod.mk.injEq] at h
      obtain ⟨_, rfl, rfl⟩ := h
      exact ⟨.cons (by decide) (settles_setOpen cs), .inl (Nat.le_succ depth)⟩
  · simp only [Option.some.injEq, Prod.mk.injEq] at h
    obtain ⟨_, _, rfl⟩ := h
    exact ⟨.cons (by decide) .refl, .inr rfl⟩
  case h_3 | h_4 | h_5 =>
    simp only [Option.some.injEq, Prod.mk.injEq] at h
    obtain ⟨_, rfl, rfl⟩ := h
    exact ⟨.cons (by decide) (.cons (by decide) .refl), .inl (Nat.le_refl _)⟩
  · simp only [Option.map_eq_some_iff, Prod.exists, Prod.mk.injEq] at h
    obtain ⟨s, tail, hm, _, rfl, rfl⟩ := h
    exact ⟨settles_member hm, .inl (Nat.le_refl _)⟩

/-! ## Outside brackets -/

/-- Tokens outside brackets settle. -/
theorem settles_outside {next : Nat} {c : Char} {cs rest : List Char} {ts : List Token}
    (h : readOutside c cs = some (ts, next, rest)) : Settles (c :: cs) rest := by
  unfold readOutside at h
  split at h
  · simp only [Option.map_eq_some_iff, Prod.exists, Prod.mk.injEq] at h
    obtain ⟨e, tail, he, _, _, rfl⟩ := h
    exact settles_escape he
  · simp only [Option.some.injEq, Prod.mk.injEq] at h
    obtain ⟨_, _, rfl⟩ := h
    exact .cons (by decide) (settles_setOpen cs)
  · split at h
    · simp only [Option.some.injEq, Prod.mk.injEq] at h
      obtain ⟨_, _, rfl⟩ := h
      exact .cons (by decide) (.cons (by decide) (.cons (by decide) .refl))
    · simp at h
    · simp only [Option.some.injEq, Prod.mk.injEq] at h
      obtain ⟨_, _, rfl⟩ := h
      exact .cons (by decide) .refl
  case h_9 => simp at h
  case h_13 hback _ _ _ _ _ _ _ _ _ _ _ =>
    simp only [Option.some.injEq, Prod.mk.injEq] at h
    obtain ⟨_, _, rfl⟩ := h
    exact .cons hback .refl
  all_goals
    simp only [Option.some.injEq, Prod.mk.injEq] at h
    obtain ⟨_, _, rfl⟩ := h
    exact .cons (by decide) .refl

/-- An escape that uses up a text ending in `$` is the escaped `$`. -/
theorem escape_dollar {cs body : List Char} {e : Escape} (h : readEscape cs = some (e, []))
    (hcs : cs = body ++ ['$']) : body = [] := by
  obtain ⟨c, taken, htaken, hargument⟩ := readEscape_takes h
  rw [hcs, List.append_nil] at htaken
  cases body with
  | nil => rfl
  | cons d ds =>
    rw [List.cons_append, List.cons.injEq] at htaken
    exact absurd (hargument.bare '$' (by simp [← htaken.2])) (by decide)

/-- A token outside brackets that uses up a text ending in `$` is the end of the
text, unless the `$` is escaped. -/
theorem outside_dollar {c : Char} {cs body : List Char} {ts : List Token}
    (h : readOutside c cs = some (ts, 0, [])) (hcs : c :: cs = body ++ ['$'])
    (hbody : escapesNext body = false) : ts = [.atom (.assert .textEnd)] := by
  cases body with
  | nil =>
    obtain ⟨rfl, rfl⟩ : c = '$' ∧ cs = [] := by simpa using hcs
    simpa [readOutside] using h.symm
  | cons d ds =>
    obtain ⟨rfl, rfl⟩ : c = d ∧ cs = ds ++ ['$'] := by simpa using hcs
    -- the `$` is left over by every token that does not take the whole text
    unfold readOutside at h
    split at h
    · simp only [Option.map_eq_some_iff, Prod.exists, Prod.mk.injEq] at h
      obtain ⟨e, tail, he, _, _, rfl⟩ := h
      rw [escape_dollar he rfl] at hbody
      exact absurd hbody (by decide)
    · simp at h
    · split at h
      · rename_i hds
        simp only [Option.some.injEq, Prod.mk.injEq, true_and] at h
        have := congrArg List.getLast? hds
        simp [h.2] at this
      · simp at h
      · simp at h
    all_goals simp at h

end Token

/-- What is left of a text ending in a `$` is nothing, or ends in that `$`. -/
theorem Token.Settles.before_dollar {body rest : List Char} (h : Settles (body ++ ['$']) rest) :
    rest = [] ∨ ∃ more, rest = more ++ ['$'] ∧ escapesNext more = escapesNext body := by
  obtain ⟨taken, htaken, hsettled⟩ := h
  rcases List.eq_nil_or_concat rest with rfl | ⟨more, c, rfl⟩
  · exact .inl rfl
  · rw [List.concat_eq_append, ← List.append_assoc] at htaken
    obtain ⟨hbody, hc⟩ := List.append_inj' htaken rfl
    refine .inr ⟨more, by rw [List.concat_eq_append, hc], ?_⟩
    rw [hbody, escapesNext_append hsettled]

theorem tokens?_empty {depth : Nat} {ts : List Token} (h : tokens? depth [] = some ts) :
    depth = 0 ∧ ts = [] := by
  rw [tokens?] at h
  split at h
  · rename_i hdepth
    exact ⟨hdepth, by simpa using h.symm⟩
  · simp at h

/-- A text that can be cut into tokens does not escape what stands behind it. -/
theorem escapesNext_of_tokens? {depth : Nat} {cs : List Char} {ts : List Token}
    (h : tokens? depth cs = some ts) : escapesNext cs = false := by
  fun_induction tokens? depth cs generalizing ts
  · rfl
  · simp at h
  · simp at h
  · rename_i c cs front next rest hread ih
    obtain ⟨us, hus, _⟩ := Option.map_eq_some_iff.1 h
    obtain ⟨taken, hcs, hsettled⟩ := Token.settles_outside hread
    rw [hcs, escapesNext_append hsettled, ih hus]
  · simp at h
  · rename_i c cs depth front next rest hread ih
    obtain ⟨us, hus, _⟩ := Option.map_eq_some_iff.1 h
    obtain ⟨⟨taken, hcs, hsettled⟩, _⟩ := Token.settles_inSet hread
    rw [hcs, escapesNext_append hsettled, ih hus]

/-- The tokens of a text ending in a `$` that is not escaped end with the
assertion that the text ends there. -/
theorem tokens?_textEnd {depth : Nat} {body : List Char} {ts : List Token}
    (h : tokens? depth (body ++ ['$']) = some ts) (hbody : escapesNext body = false) :
    ∃ us, ts = us ++ [.atom (.assert .textEnd)] := by
  induction hn : body.length using Nat.strongRecOn generalizing depth body ts with
  | ind n ih =>
    obtain ⟨c, cs, hcs⟩ := List.exists_cons_of_ne_nil (show body ++ ['$'] ≠ [] by simp)
    have size : cs.length = body.length := by
      have := congrArg List.length hcs
      simp at this
      omega
    have later : ∀ {next : Nat} {more : List Char} {us : List Token}, more.length < n →
        escapesNext more = escapesNext body → tokens? next (more ++ ['$']) = some us →
        ∀ front, ∃ vs, front ++ us = vs ++ [.atom (.assert .textEnd)] := by
      intro next more us hlength hmore hus front
      obtain ⟨vs, rfl⟩ := ih more.length hlength hus (hmore.trans hbody) rfl
      exact ⟨front ++ vs, by rw [List.append_assoc]⟩
    rw [hcs] at h
    cases depth with
    | zero =>
      rw [tokens?_outside, Option.bind_eq_some_iff] at h
      obtain ⟨⟨front, next, rest⟩, hread, h⟩ := h
      simp only [Option.map_eq_some_iff] at h
      obtain ⟨us, hus, rfl⟩ := h
      have settles := Token.settles_outside hread
      rw [← hcs] at settles
      rcases settles.before_dollar with rfl | ⟨more, rfl, hmore⟩
      · obtain ⟨rfl, rfl⟩ := tokens?_empty hus
        exact ⟨[], by rw [Token.outside_dollar hread hcs.symm hbody]; rfl⟩
      · have := Token.readOutside_length hread
        rw [List.length_append, List.length_singleton] at this
        exact later (by omega) hmore hus front
    | succ depth =>
      rw [tokens?_inside, Option.bind_eq_some_iff] at h
      obtain ⟨⟨front, next, rest⟩, hread, h⟩ := h
      simp only [Option.map_eq_some_iff] at h
      obtain ⟨us, hus, rfl⟩ := h
      obtain ⟨settles, hdepth⟩ := Token.settles_inSet hread
      rw [← hcs] at settles
      rcases settles.before_dollar with rfl | ⟨more, rfl, hmore⟩
      · -- the bracket that is open would have to close behind the `$`
        obtain ⟨rfl, rfl⟩ := tokens?_empty hus
        rcases hdepth with hdepth | hclosed
        · omega
        · have := congrArg List.getLast? (hcs.trans hclosed)
          simp at this
      · have := Token.readInSet_length hread
        rw [List.length_append, List.length_singleton, List.length_cons] at this
        exact later (by omega) hmore hus front

end AccessPolicy.Regex
