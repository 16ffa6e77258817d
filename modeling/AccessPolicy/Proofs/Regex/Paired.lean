import AccessPolicy.Proofs.Regex.Anchored

/-!
# Texts whose parentheses pair

A text that is put together from pieces may hold an escape that is not complete: the letters
and digits of the pieces behind `\x` are then the number that it asks for. An escape takes no
more than those (`Paired.behind_argument`), for no piece begins with a brace. So the groups and
the bars of the text are cut as they are written, whatever stands behind it, and what was open
before the text is open behind it (`Paired.cutsBefore`). Without a bar outside its groups the
text is read as one branch (`Paired.not_isChoice`).
-/

namespace AccessPolicy.Regex

/-- The text is a row of pieces that are read wherever they stand, of escaped characters and of
groups, whose branches are such texts. Bars stand in groups, and between them if `bars`
holds. -/
inductive Paired : Bool → List Char → Prop where
  | nil {bars : Bool} : Paired bars []
  /-- A letter or a digit in front of a piece could belong to an escape. It is a piece of its
  own. -/
  | piece {bars : Bool} {c : Char} {cs rest : List Char} {parts : List Regex} :
      Writes (c :: cs) parts → (c.isAlphanum = true → cs = []) → Paired bars rest →
      Paired bars (c :: (cs ++ rest))
  | escape {bars : Bool} {c : Char} {rest : List Char} :
      Paired bars rest → Paired bars ('\\' :: c :: rest)
  | group {bars : Bool} {opening body rest : List Char} :
      opening = ['('] ∨ opening = "(?:".toList → Paired true body → Paired bars rest →
      Paired bars (opening ++ (body ++ ')' :: rest))
  | bar {rest : List Char} : Paired true rest → Paired true ('|' :: rest)

/-- No escape in front of the text takes anything from it. -/
def stopsEscapes : List Char → Bool
  | [] => true
  | c :: _ => !c.isAlphanum && c != '\x7b'

namespace Paired

variable {bars : Bool} {v w text rest : List Char}

/-! ## Composing texts -/

theorem mono (h : Paired bars text) : Paired true text := by
  induction h with
  | nil => exact .nil
  | piece hw hc _ ih => exact .piece hw hc ih
  | escape _ ih => exact .escape ih
  | group hopen hbody _ _ ih => exact .group hopen hbody ih
  | bar _ ih => exact .bar ih

theorem append (hv : Paired bars v) (hw : Paired bars w) : Paired bars (v ++ w) := by
  induction hv with
  | nil => exact hw
  | piece hp hc _ ih =>
    rw [List.cons_append, List.append_assoc]
    exact .piece hp hc (ih hw)
  | escape _ ih => exact .escape (ih hw)
  | group hopen hbody _ _ ih =>
    rw [List.append_assoc, List.append_assoc, List.cons_append]
    exact .group hopen hbody (ih hw)
  | bar _ ih => exact .bar (ih hw)

/-- A piece alone. -/
theorem of_writes {parts : List Regex} (h : Writes text parts)
    (hhead : text.head?.any Char.isAlphanum = false ∨ text.length ≤ 1) : Paired bars text := by
  cases text with
  | nil => exact .nil
  | cons c cs =>
    have single : c.isAlphanum = true → cs = [] := by
      intro hc
      rcases hhead with hhead | hlength
      · exact absurd (hc.symm.trans hhead) (by decide)
      · exact List.length_eq_zero_iff.1 (Nat.le_zero.1 (Nat.le_of_succ_le_succ hlength))
    have alone : Paired bars (c :: (cs ++ [])) := .piece h single .nil
    rwa [List.append_nil] at alone

theorem intercalate {ws : List (List Char)} (h : ∀ w ∈ ws, Paired true w) :
    Paired true (['|'].intercalate ws) := by
  induction ws with
  | nil => exact .nil
  | cons w ws ih =>
    rw [List.forall_mem_cons] at h
    cases ws with
    | nil => simpa using h.1
    | cons next ws => simpa [List.intercalate] using h.1.append (.bar (ih h.2))

theorem choice {opening : List Char} {ws : List (List Char)}
    (hopen : opening = ['('] ∨ opening = "(?:".toList) (h : ∀ w ∈ ws, Paired true w) :
    Paired bars (opening ++ ['|'].intercalate ws ++ [')']) := by
  rw [List.append_assoc]
  exact .group hopen (intercalate h) .nil

/-! ## What an escape takes -/

theorem head_ne {c : Char} {cs : List Char} (h : Paired bars (c :: cs)) :
    c ≠ '\x7b' ∧ c ≠ '?' := by
  generalize htext : c :: cs = text at h
  cases h with
  | nil => cases htext
  | piece hw _ _ =>
    obtain ⟨rfl, _⟩ := List.cons.inj htext
    obtain ⟨ts, hts, runs⟩ := hw
    obtain ⟨_, hrun⟩ := runs .start rfl
    refine ⟨?_, hts.head_ne hrun rfl⟩
    rintro rfl
    have cut := hts.tokens?
    rw [tokens?_outside] at cut
    cases cut
  | escape _ =>
    obtain ⟨rfl, _⟩ := List.cons.inj htext
    decide
  | group hopen _ _ =>
    rcases hopen with rfl | rfl <;> obtain ⟨rfl, _⟩ := List.cons.inj htext <;> decide
  | bar _ =>
    obtain ⟨rfl, _⟩ := List.cons.inj htext
    decide

/-- A letter or a digit in front is a piece of its own. -/
theorem tail {c : Char} {cs : List Char} (h : Paired bars (c :: cs)) (hc : c.isAlphanum = true) :
    Paired bars cs := by
  generalize htext : c :: cs = text at h
  cases h with
  | nil => cases htext
  | piece _ halone hrest =>
    obtain ⟨rfl, rfl⟩ := List.cons.inj htext
    rw [halone hc]
    exact hrest
  | escape _ =>
    obtain ⟨rfl, _⟩ := List.cons.inj htext
    cases hc
  | group hopen _ _ => rcases hopen with rfl | rfl <;> cases htext <;> cases hc
  | bar _ =>
    obtain ⟨rfl, _⟩ := List.cons.inj htext
    cases hc

theorem drop_alphanum {taken after : List Char} (h : Paired bars text)
    (hrest : stopsEscapes rest = true) (htaken : ∀ c ∈ taken, c.isAlphanum = true)
    (hcut : text ++ rest = taken ++ after) :
    ∃ left, Paired bars left ∧ left.length ≤ text.length ∧ after = left ++ rest := by
  induction taken generalizing text with
  | nil => exact ⟨text, h, Nat.le_refl _, hcut.symm⟩
  | cons t taken ih =>
    rw [List.forall_mem_cons] at htaken
    cases text with
    | nil =>
      rw [List.nil_append, List.cons_append] at hcut
      rw [hcut, stopsEscapes, htaken.1] at hrest
      cases hrest
    | cons c cs =>
      rw [List.cons_append, List.cons_append] at hcut
      obtain ⟨rfl, hbehind⟩ := List.cons.inj hcut
      obtain ⟨left, hleft, hlength, hafter⟩ := ih (h.tail htaken.1) htaken.2 hbehind
      exact ⟨left, hleft, Nat.le_succ_of_le hlength, hafter⟩

/-- Behind what an escape takes from the front of the text, the text is still paired. -/
theorem behind_argument {taken after : List Char} (h : Paired bars text)
    (hrest : stopsEscapes rest = true) (htaken : Token.IsArgument taken)
    (hcut : text ++ rest = taken ++ after) :
    ∃ left, Paired bars left ∧ left.length ≤ text.length ∧ after = left ++ rest := by
  rcases htaken with halphanum | ⟨hbrace, _⟩
  · exact h.drop_alphanum hrest halphanum hcut
  · obtain ⟨more, rfl⟩ := List.head?_eq_some_iff.1 hbrace
    cases text with
    | nil =>
      rw [List.nil_append, List.cons_append] at hcut
      rw [hcut] at hrest
      cases hrest
    | cons c cs => exact absurd (List.cons.inj hcut).1 h.head_ne.1

end Paired

/-! ## Reading -/

/-- What is open in `r` is open in `s`, and no branch is ended if no bar may stand between
groups. -/
structure Reader.Keeps (bars : Bool) (r s : Reader) : Prop where
  sets : s.sets = []
  enclosing : s.enclosing = r.enclosing
  done : bars = false → s.current.done = r.current.done

theorem Reader.Keeps.trans {bars : Bool} {r s t : Reader} (h : r.Keeps bars s)
    (h' : s.Keeps bars t) : r.Keeps bars t :=
  ⟨h'.sets, h'.enclosing.trans h.enclosing, fun hb => (h'.done hb).trans (h.done hb)⟩

/-- Reading the tokens keeps what is open outside brackets. -/
def KeepsOpen (bars : Bool) (ts : List Token) : Prop :=
  ∀ r s : Reader, r.sets = [] → r.run ts = some s → r.Keeps bars s

namespace KeepsOpen

variable {bars : Bool} {ts us : List Token}

theorem nil : KeepsOpen bars [] := fun _ _ hr hs => Option.some.inj hs ▸ ⟨hr, rfl, fun _ => rfl⟩

theorem append (hts : KeepsOpen bars ts) (hus : KeepsOpen bars us) :
    KeepsOpen bars (ts ++ us) := by
  intro r s hr hs
  rw [Reader.run_append, Option.bind_eq_some_iff] at hs
  obtain ⟨mid, hmid, hs⟩ := hs
  have front := hts r mid hr hmid
  exact front.trans (hus mid s front.sets hs)

theorem atom (part : Regex) : KeepsOpen bars [.atom part] := fun _ _ hr hs =>
  Option.some.inj hs ▸ ⟨hr, rfl, fun _ => rfl⟩

theorem bar : KeepsOpen true [.bar] := fun _ _ hr hs => Option.some.inj hs ▸ ⟨hr, rfl, nofun⟩

/-- A group ends its own branches only. -/
theorem group (h : KeepsOpen true ts) : KeepsOpen bars (.groupOpen :: ts ++ [.groupClose]) := by
  intro r s hr hs
  rw [Reader.run_append, Reader.run, Option.bind_eq_some_iff] at hs
  obtain ⟨mid, hmid, hs⟩ := hs
  have inside := h ⟨r.current :: r.enclosing, .empty, r.sets, false⟩ mid hr hmid
  simp only [Reader.run, Reader.step, Reader.closeGroup, inside.enclosing, Option.bind_some,
    Option.some.injEq] at hs
  subst hs
  exact ⟨inside.sets, rfl, fun _ => rfl⟩

end KeepsOpen

theorem Writes.keepsOpen {written : List Char} {parts : List Regex} (h : Writes written parts)
    (bars : Bool) : ∃ ts, Cuts written ts ∧ KeepsOpen bars ts := by
  obtain ⟨ts, hts, runs⟩ := h
  refine ⟨ts, hts, fun r s hr hs => ?_⟩
  obtain ⟨after, hafter⟩ := runs r hr
  obtain rfl := Option.some.inj (hs.symm.trans hafter)
  exact ⟨rfl, rfl, fun _ => rfl⟩

/-- The tokens of a text end with those of the rest, and those in front keep what is open. -/
def CutsBefore (bars : Bool) (text rest : List Char) : Prop :=
  ∀ ts, tokens? 0 (text ++ rest) = some ts →
    ∃ us vs, ts = us ++ vs ∧ tokens? 0 rest = some vs ∧ KeepsOpen bars us

/-- Tokens in front of a text that is cut before the rest. -/
theorem CutsBefore.of_front {bars : Bool} {text rest : List Char} (h : CutsBefore bars text rest)
    {front ts : List Token} (hfront : KeepsOpen bars front)
    (hts : tokens? 0 (text ++ rest) = some ts) :
    ∃ us vs, front ++ ts = us ++ vs ∧ tokens? 0 rest = some vs ∧ KeepsOpen bars us := by
  obtain ⟨us, vs, rfl, hvs, hus⟩ := h ts hts
  exact ⟨front ++ us, vs, (List.append_assoc _ _ _).symm, hvs, hfront.append hus⟩

/-- The parenthesis in front of a paired text opens a group. -/
theorem Paired.opens {body : List Char} (h : Paired true body) {opening : List Char}
    (hopen : opening = ['('] ∨ opening = "(?:".toList) : Opens opening body := by
  rcases hopen with rfl | rfl
  · intro rest
    have front : Token.readOutside '(' (body ++ ')' :: rest) =
        some ([.groupOpen], 0, body ++ ')' :: rest) := by
      cases body with
      | nil => rfl
      | cons c cs => simp [Token.readOutside, h.head_ne.2]
    exact tokens?_of_readOutside front
  · exact opens_uncaptured body

/-- A paired text is cut where it ends, and keeps what is open. -/
theorem Paired.cutsBefore {bars : Bool} {text rest : List Char} (h : Paired bars text)
    (hrest : stopsEscapes rest = true) : CutsBefore bars text rest := by
  -- on the length, since an escape may take some of the pieces behind it
  induction hn : text.length using Nat.strongRecOn generalizing bars text rest with
  | ind n ih =>
    intro ts hts
    cases h with
    | nil => exact ⟨[], ts, rfl, hts, .nil⟩
    | @piece _ c cs more _ hw _ hmore =>
      obtain ⟨front, hcut, hfront⟩ := hw.keepsOpen bars
      rw [← List.cons_append, List.append_assoc, hcut, Option.map_eq_some_iff] at hts
      obtain ⟨us, hus, rfl⟩ := hts
      refine (ih more.length ?_ hmore hrest rfl).of_front hfront hus
      simp at hn
      omega
    | @escape _ c more hmore =>
      rw [List.cons_append, List.cons_append, tokens?_outside, Option.bind_eq_some_iff] at hts
      obtain ⟨⟨front, next, behind⟩, hread, hts⟩ := hts
      simp only [Token.readOutside, Option.map_eq_some_iff, Prod.exists, Prod.mk.injEq] at hread
      obtain ⟨e, _, hescape, rfl, rfl, rfl⟩ := hread
      obtain ⟨us, hus, rfl⟩ := Option.map_eq_some_iff.1 hts
      -- the escape takes what it needs from the pieces behind it
      obtain ⟨d, taken, hcut, htaken⟩ := Token.readEscape_takes hescape
      obtain ⟨left, hleft, hlength, rfl⟩ :=
        hmore.behind_argument hrest htaken (List.cons.inj hcut).2
      refine (ih left.length ?_ hleft hrest rfl).of_front (.atom _) hus
      simp only [List.length_cons] at hn
      omega
    | @group _ opening body more hopen hbody hmore =>
      rw [List.append_assoc, List.append_assoc, List.cons_append, hbody.opens hopen,
        Option.map_eq_some_iff] at hts
      obtain ⟨inner, hinner, rfl⟩ := hts
      simp only [List.length_append, List.length_cons] at hn
      obtain ⟨us, vs, rfl, hvs, hus⟩ := ih body.length (by omega) hbody rfl rfl inner hinner
      have close : Token.readOutside ')' (more ++ rest) = some ([.groupClose], 0, more ++ rest) :=
        rfl
      rw [tokens?_of_readOutside close, Option.map_eq_some_iff] at hvs
      obtain ⟨ws, hws, rfl⟩ := hvs
      have behind := (ih more.length (by omega) hmore hrest rfl).of_front hus.group hws
      simpa using behind
    | @bar more hmore =>
      have cut : Token.readOutside '|' (more ++ rest) = some ([.bar], 0, more ++ rest) := rfl
      rw [List.cons_append, tokens?_of_readOutside cut, Option.map_eq_some_iff] at hts
      obtain ⟨us, hus, rfl⟩ := hts
      refine (ih more.length ?_ hmore hrest rfl).of_front .bar hus
      simp only [List.length_cons] at hn
      omega

/-! ## What is read -/

/-- A paired text does not escape what stands behind it. -/
theorem Paired.escapesNext {bars : Bool} {text : List Char} (h : Paired bars text) :
    escapesNext text = false := by
  induction h with
  | nil => rfl
  | piece hw _ _ ih =>
    obtain ⟨ts, hts, _⟩ := hw
    rwa [← List.cons_append, escapesNext_append (escapesNext_of_tokens? hts.tokens?)]
  | escape _ ih => exact ih
  | @group _ opening body rest hopen _ _ hbody ih =>
    have settled : Regex.escapesNext opening = false := by
      rcases hopen with rfl | rfl <;> decide
    rw [escapesNext_append settled, escapesNext_append hbody]
    exact ih
  | bar _ ih => exact ih

/-- Behind `^`, a text without a bar outside its groups is read as one branch. -/
theorem Paired.not_isChoice {text : List Char} (h : Paired false text)
    (hfront : frontIsFree text = true) {r : Regex} (hread : read? ('^' :: text) = some r) :
    r.isChoice = false := by
  obtain ⟨ts, s, hts, hrun, led, rfl⟩ := led_of_read? hread hfront
  rw [← List.append_nil text] at hts
  obtain ⟨us, vs, rfl, hvs, hus⟩ := h.cutsBefore rfl ts hts
  obtain ⟨_, rfl⟩ := tokens?_empty hvs
  rw [List.append_nil] at hrun
  have single : s.current.done = [] := (hus _ s rfl hrun).done rfl
  rcases led with ⟨later, first, hdone⟩ | ⟨_, more, hparts, _⟩
  · rw [single] at hdone
    exact absurd hdone (by simp)
  · have whole : s.current.toRegex = catAll (.assert .textStart :: more.reverse) := by
      simp [Branches.toRegex, Branches.next, single, hparts, altAll]
    rw [whole, isChoice_fromStart]

end AccessPolicy.Regex
