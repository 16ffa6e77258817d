import AccessPolicy.Proofs.Regex.Escapes

/-!
# Text behind a token

A token is cut from the front of a text, and what stands further behind has no part in
it: a longer text gives the same token and leaves more behind. Outside brackets this
holds of every escape. Inside brackets it holds of every token that leaves the closing
bracket to come, because nothing that is read there goes past it.

So the text up to the closing bracket is cut in the same way whatever follows it and
however many brackets stand around it (`Within.append`, `Within.deeper`).
-/

namespace AccessPolicy.Regex

namespace Token

/-! ## Escapes -/

/-- What is taken up to a character that stops it does not depend on what is further
behind. -/
theorem takeWhile_stop_append {p : Char → Bool} {cs rest : List Char} {d : Char}
    (h : cs.dropWhile p = d :: rest) (tail : List Char) :
    (cs ++ tail).dropWhile p = d :: (rest ++ tail) ∧
      (cs ++ tail).takeWhile p = cs.takeWhile p := by
  induction cs with
  | nil => cases h
  | cons c cs ih =>
    by_cases hc : p c
    · rw [List.dropWhile_cons_of_pos hc] at h
      rw [List.cons_append, List.dropWhile_cons_of_pos hc, List.takeWhile_cons_of_pos hc,
        List.takeWhile_cons_of_pos hc, (ih h).2]
      exact ⟨(ih h).1, rfl⟩
    · rw [List.dropWhile_cons_of_neg hc] at h
      rw [List.cons_append, List.dropWhile_cons_of_neg hc, List.takeWhile_cons_of_neg hc,
        List.takeWhile_cons_of_neg hc]
      exact ⟨by rw [← List.cons_append, h, List.cons_append], rfl⟩

theorem readHex_append {width : Nat} {cs rest : List Char} {c : Char} (hwidth : 0 < width)
    (h : readHex width cs = some (c, rest)) (tail : List Char) :
    readHex width (cs ++ tail) = some (c, rest ++ tail) := by
  unfold readHex at h
  split at h
  · rename_i cs
    split at h
    · cases h
    · rename_i d after hd
      obtain ⟨dropped, taken⟩ := takeWhile_stop_append hd tail
      have hne : cs ≠ [] := by
        rintro rfl
        cases hd
      rw [List.cons_append]
      simp only [readHex, dropped, taken, List.head?_append_of_ne_nil _ hne]
      split at h
      · cases h
      · rename_i hfirst
        rw [if_neg hfirst]
        simp only [Option.map_eq_some_iff, Prod.mk.injEq] at h ⊢
        obtain ⟨c', hread, hc, rfl⟩ := h
        exact ⟨c', hread, hc, rfl⟩
  · rename_i hbrace
    split at h
    · rename_i hlength
      have hle : width ≤ cs.length := by
        rw [List.length_take] at hlength
        omega
      have taken : (cs ++ tail).take width = cs.take width := List.take_append_of_le_length hle
      have dropped : (cs ++ tail).drop width = cs.drop width ++ tail :=
        List.drop_append_of_le_length hle
      unfold readHex
      split
      · rename_i more hmore
        cases cs with
        | nil => exact absurd hle (by rw [List.length_nil]; omega)
        | cons d cs => exact absurd (by rw [(List.cons.inj hmore).1]) (hbrace cs)
      · rw [taken, dropped, if_pos hlength]
        simp only [Option.map_eq_some_iff, Prod.mk.injEq] at h ⊢
        obtain ⟨c', hread, hc, rfl⟩ := h
        exact ⟨c', hread, hc, rfl⟩
    · cases h

theorem readCategory_append {cs rest : List Char} {k : Text.Category}
    (h : readCategory cs = some (k, rest)) (tail : List Char) :
    readCategory (cs ++ tail) = some (k, rest ++ tail) := by
  unfold readCategory at h
  split at h
  · cases h
  · rename_i cs
    split at h
    · cases h
    · rename_i d after hd
      obtain ⟨dropped, taken⟩ := takeWhile_stop_append hd tail
      rw [List.cons_append]
      simp only [readCategory, dropped, taken]
      simp only [Option.map_eq_some_iff, Prod.mk.injEq] at h ⊢
      obtain ⟨k', hread, hk, rfl⟩ := h
      exact ⟨k', hread, hk, rfl⟩
  · rename_i c cs hbrace
    rw [List.cons_append]
    unfold readCategory
    split
    · rename_i hnil
      cases hnil
    · rename_i more hmore
      exact absurd (List.cons.inj hmore).1 hbrace
    · rename_i d ds _ hds
      obtain ⟨rfl, rfl⟩ := List.cons.inj hds
      simp only [Option.map_eq_some_iff, Prod.mk.injEq] at h ⊢
      obtain ⟨k', hread, hk, rfl⟩ := h
      exact ⟨k', hread, hk, rfl⟩

/-- An escape is the same whatever stands behind it. -/
theorem readEscape_append {cs rest : List Char} {e : Escape}
    (h : readEscape cs = some (e, rest)) (tail : List Char) :
    readEscape (cs ++ tail) = some (e, rest ++ tail) := by
  cases cs with
  | nil => cases h
  | cons c cs =>
    rw [List.cons_append]
    unfold readEscape at h ⊢
    simp only at h ⊢
    split at h
    case h_1 | h_2 | h_3 =>
      simp only [Option.map_eq_some_iff, Prod.exists, Prod.mk.injEq] at h ⊢
      obtain ⟨d, after, hread, he, rfl⟩ := h
      exact ⟨d, _, readHex_append (by decide) hread tail, he, rfl⟩
    case h_4 | h_5 =>
      simp only [Option.map_eq_some_iff, Prod.exists, Prod.mk.injEq] at h ⊢
      obtain ⟨k, after, hread, he, rfl⟩ := h
      exact ⟨k, _, readCategory_append hread tail, he, rfl⟩
    case h_24 =>
      split at h
      · rename_i hc
        simp only [Option.some.injEq, Prod.mk.injEq] at h
        rw [if_pos hc, h.1, h.2]
      · cases h
    all_goals
      simp only [Option.some.injEq, Prod.mk.injEq] at h ⊢
      exact ⟨h.1, by rw [h.2]⟩

/-! ## Inside brackets -/

theorem readEnd_append {cs rest : List Char} {e : Escape} (h : readEnd cs = some (e, rest))
    (tail : List Char) : readEnd (cs ++ tail) = some (e, rest ++ tail) := by
  unfold readEnd at h
  split at h
  · cases h
  · exact readEscape_append h tail
  · rename_i c cs hc
    simp only [Option.some.injEq, Prod.mk.injEq] at h
    obtain ⟨rfl, rfl⟩ := h
    rw [List.cons_append]
    unfold readEnd
    split
    · rename_i hnil
      cases hnil
    · rename_i more hmore
      exact absurd (List.cons.inj hmore).1 hc
    · rename_i d ds _ hds
      obtain ⟨rfl, rfl⟩ := List.cons.inj hds
      rfl

/-- A member is the same whatever stands behind the bracket that closes the set. -/
theorem readMember_append {cs rest : List Char} {s : CharSet}
    (h : readMember cs = some (s, rest)) (hclose : ']' ∈ rest) (tail : List Char) :
    readMember (cs ++ tail) = some (s, rest ++ tail) := by
  unfold readMember at h ⊢
  simp only [Option.bind_eq_bind, Option.bind_eq_some_iff, Prod.exists] at h ⊢
  obtain ⟨first, back, hfirst, h⟩ := h
  refine ⟨first, back ++ tail, readEnd_append hfirst tail, ?_⟩
  split at h
  · rename_i c more
    rw [List.cons_append, List.cons_append]
    simp only
    split at h
    · rename_i hc
      rw [if_pos hc]
      simp only [Option.map_eq_some_iff, Prod.mk.injEq] at h ⊢
      obtain ⟨s', hmember, hs, rfl⟩ := h
      exact ⟨s', hmember, hs, rfl⟩
    · rename_i hc
      rw [if_neg hc]
      simp only [Option.bind_eq_some_iff, Prod.exists, Option.map_eq_some_iff,
        Prod.mk.injEq] at h ⊢
      obtain ⟨last, after, hlast, s', hrange, hs, rfl⟩ := h
      exact ⟨last, after ++ tail, readEnd_append hlast tail, s', hrange, hs, rfl⟩
  · rename_i hrange
    simp only [Option.map_eq_some_iff, Prod.mk.injEq] at h
    obtain ⟨s', hmember, hs, rfl⟩ := h
    split
    · -- a hyphen would be the last character, with no bracket behind it
      rename_i c more hmore
      match back, hclose with
      | [d], hclose =>
        rw [(List.cons.inj hmore).1] at hclose
        exact absurd hclose (by decide)
      | d :: d' :: ds, _ => exact absurd (by rw [(List.cons.inj hmore).1]) (hrange d' ds)
    · simp only [Option.map_eq_some_iff, Prod.mk.injEq]
      exact ⟨s', hmember, hs, trivial⟩

/-- The text of a named set behind its opening bracket, up to the bracket that closes
it. -/
def namedText (negated : Bool) (name : List Char) : List Char :=
  ':' :: ((if negated then ['^'] else []) ++ name ++ [':'])

/-- A text, taken apart behind the sign of a negated set. -/
theorem caret_split (cs : List Char) :
    cs = (if (cs.head? == some '^') = true then ['^'] else []) ++
      (if (cs.head? == some '^') = true then cs.drop 1 else cs) := by
  cases cs with
  | nil => rfl
  | cons c cs =>
    by_cases hc : c = '^'
    · simp [hc]
    · simp [hc]

/-- A named set is read exactly from the text of one. -/
theorem readNamedSet_eq_some_iff {cs rest : List Char} {s : CharSet} :
    readNamedSet cs = some (s, rest) ↔ ∃ negated name p,
      cs = namedText negated name ++ ']' :: rest ∧ Property.ofAsciiName? name = some p ∧
        s = .property negated p := by
  constructor
  · intro h
    unfold readNamedSet at h
    split at h
    · rename_i body
      simp only at h
      split at h
      · rename_i after hafter
        simp only [Option.map_eq_some_iff, Prod.mk.injEq] at h
        obtain ⟨p, hp, rfl, rfl⟩ := h
        have stop := takeWhile_stop hafter
        refine ⟨body.head? == some '^', _, p, ?_, hp, rfl⟩
        rw [namedText, List.cons_append, List.append_assoc, List.append_assoc,
          List.singleton_append, ← stop, ← caret_split]
      · cases h
    · cases h
  · rintro ⟨negated, name, p, rfl, hp, rfl⟩
    obtain ⟨hne, halpha⟩ := alpha_of_ofAsciiName? hp
    have letters : ∀ c ∈ name, (c != ':') = true := by
      intro c hc
      rw [bne_iff_ne]
      rintro rfl
      exact absurd (List.all_eq_true.1 halpha _ hc) (by decide)
    have body : readNamedSet (':' :: ((if negated then ['^'] else []) ++
        (name ++ ':' :: ']' :: rest))) = some (.property negated p, rest) := by
      have sign : (((if negated then ['^'] else []) ++ (name ++ ':' :: ']' :: rest)).head? ==
          some '^') = negated := by
        cases negated with
        | true => rfl
        | false =>
          cases name with
          | nil => exact absurd rfl hne
          | cons c name =>
            have hc : c ≠ '^' := by
              rintro rfl
              exact absurd (List.all_eq_true.1 halpha _ List.mem_cons_self) (by decide)
            simpa using hc
      have dropped : (name ++ ':' :: ']' :: rest).dropWhile (· != ':') = ':' :: ']' :: rest :=
        List.dropWhile_append_of_pos letters
      have taken : (name ++ ':' :: ']' :: rest).takeWhile (· != ':') = name := by
        rw [List.takeWhile_append_of_pos letters]
        exact List.append_nil name
      unfold readNamedSet
      simp only [sign]
      cases negated <;> simp [dropped, taken, hp]
    rw [← body, namedText]
    simp

/-- The text of a named set is made of letters and the signs around them. -/
theorem plain_namedText {negated : Bool} {name : List Char} {p : Property}
    (hp : Property.ofAsciiName? name = some p) :
    ∀ c ∈ namedText negated name, c == ':' || c == '^' || c.isAlpha := by
  have letters := List.all_eq_true.1 (alpha_of_ofAsciiName? hp).2
  intro c hc
  cases negated <;>
    simp only [namedText, List.mem_cons, List.mem_append, List.not_mem_nil, or_false, if_true,
      Bool.false_eq_true, if_false, false_or] at hc
  · rcases hc with rfl | hc | rfl
    · rfl
    · rw [letters c hc, Bool.or_true]
    · rfl
  · rcases hc with rfl | (rfl | hc) | rfl
    · rfl
    · rfl
    · rw [letters c hc, Bool.or_true]
    · rfl

/-- The text of a named set holds no closing bracket. -/
theorem close_not_mem_namedText {negated : Bool} {name : List Char} {p : Property}
    (hp : Property.ofAsciiName? name = some p) : ']' ∉ namedText negated name :=
  fun hclose => absurd (plain_namedText hp _ hclose) (by decide)

theorem readNamedSet_append {cs : List Char} (hclose : ']' ∈ cs) (tail : List Char) :
    readNamedSet (cs ++ tail) = (readNamedSet cs).map fun (s, rest) => (s, rest ++ tail) := by
  cases h : readNamedSet cs with
  | some read =>
    obtain ⟨s, rest⟩ := read
    obtain ⟨negated, name, p, hcs, hp, hs⟩ := readNamedSet_eq_some_iff.1 h
    refine readNamedSet_eq_some_iff.2 ⟨negated, name, p, ?_, hp, hs⟩
    rw [hcs, List.append_assoc, List.cons_append]
  | none =>
    rw [Option.map_none, Option.eq_none_iff_forall_ne_some]
    rintro ⟨s, rest⟩ hread
    obtain ⟨negated, name, p, hcs, hp, hs⟩ := readNamedSet_eq_some_iff.1 hread
    have apart : ']' ∉ namedText negated name := close_not_mem_namedText hp
    -- the first closing bracket of both texts is the same
    rcases List.append_eq_append_iff.1 hcs with ⟨more, hnamed, _⟩ | ⟨more, hmore, hclosed⟩
    · exact apart (hnamed ▸ List.mem_append_left more hclose)
    · cases more with
      | nil =>
        rw [List.append_nil] at hmore
        exact apart (hmore ▸ hclose)
      | cons c more =>
        rw [List.cons_append, List.cons.injEq] at hclosed
        rw [← hclosed.1] at hmore
        have again := readNamedSet_eq_some_iff.2 ⟨negated, name, p, hmore, hp, hs⟩
        rw [h] at again
        cases again

/-- What an opening bracket takes is the same whatever stands behind the bracket that
closes it. -/
theorem readSetOpen_append {cs : List Char} (hclose : ']' ∈ (readSetOpen cs).2)
    (tail : List Char) :
    readSetOpen (cs ++ tail) = ((readSetOpen cs).1, (readSetOpen cs).2 ++ tail) := by
  cases cs with
  | nil => exact absurd hclose (by decide)
  | cons c cs =>
    have sign : ((c :: cs ++ tail).head? == some '^') = ((c :: cs).head? == some '^') := rfl
    have behind : (if ((c :: cs).head? == some '^') = true then (c :: cs ++ tail).drop 1
        else c :: cs ++ tail) =
          (if ((c :: cs).head? == some '^') = true then (c :: cs).drop 1 else c :: cs) ++ tail := by
      split <;> rfl
    unfold readSetOpen at hclose ⊢
    simp only [sign, behind] at hclose ⊢
    generalize (if ((c :: cs).head? == some '^') = true then (c :: cs).drop 1
      else c :: cs) = body at hclose ⊢
    cases hbody : body.dropWhile (· == '-') with
    | nil =>
      rw [hbody] at hclose
      cases htaken : body.takeWhile (· == '-') <;> simp [htaken] at hclose
    | cons d rest =>
      obtain ⟨dropped, taken⟩ := takeWhile_stop_append hbody tail
      rw [dropped, taken]
      by_cases hd : d = ']'
      · cases body.takeWhile (· == '-') <;> simp [hd]
      · cases body.takeWhile (· == '-') <;> simp [hd]

theorem readInSet_append {depth next : Nat} {cs rest : List Char} {ts : List Token}
    (h : readInSet depth cs = some (ts, next, rest)) (hclose : ']' ∈ rest) (tail : List Char) :
    readInSet depth (cs ++ tail) = some (ts, next, rest ++ tail) := by
  unfold readInSet at h
  split at h
  · rename_i more
    split at h
    · rename_i s after hnamed
      simp only [Option.some.injEq, Prod.mk.injEq] at h
      obtain ⟨rfl, rfl, rfl⟩ := h
      obtain ⟨taken, hmore, _⟩ := settles_namedSet hnamed
      have inside : ']' ∈ more := by
        rw [hmore]
        exact List.mem_append_right taken hclose
      rw [List.cons_append, readInSet, readNamedSet_append inside, hnamed]
      rfl
    · rename_i hnamed
      simp only [Option.some.injEq, Prod.mk.injEq] at h
      obtain ⟨rfl, rfl, rfl⟩ := h
      obtain ⟨taken, hmore, _⟩ := settles_setOpen more
      have inside : ']' ∈ more := by
        rw [hmore]
        exact List.mem_append_right taken hclose
      rw [List.cons_append, readInSet, readNamedSet_append inside, hnamed,
        readSetOpen_append hclose]
      rfl
  · simp only [Option.some.injEq, Prod.mk.injEq] at h
    obtain ⟨rfl, rfl, rfl⟩ := h
    rfl
  case h_3 | h_4 | h_5 =>
    simp only [Option.some.injEq, Prod.mk.injEq] at h
    obtain ⟨rfl, rfl, rfl⟩ := h
    rfl
  · simp only [Option.map_eq_some_iff, Prod.exists, Prod.mk.injEq] at h
    obtain ⟨s, after, hmember, rfl, rfl, rfl⟩ := h
    rename_i hopen hclosed hinter hdiff hsym
    -- two characters at least are here, so that no operator comes about at the seam
    match cs, hmember with
    | [c], hmember =>
      have hlength := readMember_length hmember
      rw [List.length_singleton, Nat.lt_one_iff, List.length_eq_zero_iff] at hlength
      rw [hlength] at hclose
      cases hclose
    | c :: d :: cs, hmember =>
      have appended := readMember_append hmember hclose tail
      rw [List.cons_append, List.cons_append] at appended ⊢
      unfold readInSet
      split
      · rename_i hcs
        exact absurd (by rw [(List.cons.inj hcs).1]) (hopen (d :: cs))
      · rename_i hcs
        exact absurd (by rw [(List.cons.inj hcs).1]) (hclosed (d :: cs))
      case h_6 =>
        rw [appended]
        rfl
      all_goals
        rename_i hcs
        obtain ⟨hc, hcs⟩ := List.cons.inj hcs
        obtain ⟨hd, _⟩ := List.cons.inj hcs
      · exact absurd (by rw [hc, hd]) (hinter cs)
      · exact absurd (by rw [hc, hd]) (hdiff cs)
      · exact absurd (by rw [hc, hd]) (hsym cs)

/-- How many brackets are open makes no difference to what is read inside them. -/
theorem readInSet_deeper {depth next : Nat} {cs rest : List Char} {ts : List Token}
    (h : readInSet (depth + 1) cs = some (ts, next, rest)) :
    readInSet (depth + 2) cs = some (ts, next + 1, rest) := by
  unfold readInSet at h ⊢
  split at h
  · split at h <;> simp_all
  · simp only [Option.some.injEq, Prod.mk.injEq] at h ⊢
    obtain ⟨rfl, rfl, rfl⟩ := h
    exact ⟨rfl, rfl, rfl⟩
  case h_6 =>
    simp only [Option.map_eq_some_iff, Prod.exists, Prod.mk.injEq] at h ⊢
    obtain ⟨s, after, hmember, rfl, rfl, rfl⟩ := h
    exact ⟨s, after, hmember, rfl, rfl, rfl⟩
  all_goals
    simp only [Option.some.injEq, Prod.mk.injEq] at h ⊢
    obtain ⟨rfl, rfl, rfl⟩ := h
    exact ⟨rfl, rfl, rfl⟩

end Token

/-! ## Up to the closing bracket -/

/-- Inside brackets, with `depth` more of them around the innermost, tokens are cut from
the front of a text until `next` more are left, and none of them closes the outermost. -/
inductive Within : Nat → List Char → List Token → Nat → List Char → Prop where
  | refl (depth : Nat) (cs : List Char) : Within depth cs [] depth cs
  | step {depth mid next : Nat} {cs between rest : List Char} {ts us : List Token} :
      Token.readInSet (depth + 1) cs = some (ts, mid + 1, between) →
      Within mid between us next rest → Within depth cs (ts ++ us) next rest

namespace Within

variable {depth next : Nat} {cs rest : List Char} {ts : List Token}

theorem deeper (h : Within depth cs ts next rest) : Within (depth + 1) cs ts (next + 1) rest := by
  induction h with
  | refl depth cs => exact .refl _ _
  | step hread _ ih => exact .step (Token.readInSet_deeper hread) ih

theorem suffix (h : Within depth cs ts next rest) : ∃ taken, cs = taken ++ rest := by
  induction h with
  | refl depth cs => exact ⟨[], rfl⟩
  | step hread _ ih =>
    obtain ⟨front, hfront, _⟩ := (Token.settles_inSet hread).1
    obtain ⟨taken, htaken⟩ := ih
    exact ⟨front ++ taken, by rw [hfront, htaken, List.append_assoc]⟩

/-- A closing bracket that is left stands in the text. -/
theorem close_mem (h : Within depth cs ts next (']' :: rest)) : ']' ∈ cs := by
  obtain ⟨taken, rfl⟩ := h.suffix
  exact List.mem_append_right taken List.mem_cons_self

/-- What is cut before a closing bracket does not depend on what stands behind it. -/
theorem append (h : Within depth cs ts next rest) (hclose : ']' ∈ rest) (tail : List Char) :
    Within depth (cs ++ tail) ts next (rest ++ tail) := by
  induction h with
  | refl depth cs => exact .refl _ _
  | step hread hrest ih =>
    obtain ⟨taken, hbetween⟩ := hrest.suffix
    have ahead : ']' ∈ _ := hbetween ▸ List.mem_append_right taken hclose
    exact .step (Token.readInSet_append hread ahead tail) (ih hclose)

theorem tokens? (h : Within depth cs ts next rest) :
    Regex.tokens? (depth + 1) cs = (Regex.tokens? (next + 1) rest).map (ts ++ ·) := by
  induction h with
  | refl depth cs => cases Regex.tokens? (depth + 1) cs <;> simp
  | @step depth mid next cs between rest ts us hread _ ih =>
    cases cs with
    | nil => exact absurd (Token.readInSet_length hread) (Nat.not_lt_zero _)
    | cons c cs =>
      rw [tokens?_of_readInSet hread, ih]
      cases Regex.tokens? (next + 1) rest <;> simp

end Within

/-- A bracket that is open is closed by the tokens of a text, and others stand behind
it. -/
theorem exists_within {depth : Nat} {cs : List Char} {ts : List Token}
    (h : tokens? (depth + 1) cs = some ts) : ∃ vs rest ws, Within depth cs vs 0 (']' :: rest) ∧
      tokens? 0 rest = some ws ∧ ts = vs ++ .setClose :: ws := by
  induction hn : cs.length using Nat.strongRecOn generalizing depth cs ts with
  | ind n ih =>
    cases cs with
    | nil => exact absurd (tokens?_empty h).1 (by omega)
    | cons c cs =>
      rw [tokens?_inside, Option.bind_eq_some_iff] at h
      obtain ⟨⟨front, next, between⟩, hread, h⟩ := h
      simp only [Option.map_eq_some_iff] at h
      obtain ⟨us, hus, rfl⟩ := h
      cases next with
      | zero =>
        -- only a closing bracket leaves none open
        rcases (Token.settles_inSet hread).2 with hdeeper | hclosed
        · omega
        · rw [hclosed] at hread ⊢
          simp only [Token.readInSet, Option.some.injEq, Prod.mk.injEq] at hread
          obtain ⟨rfl, hdepth, _⟩ := hread
          obtain rfl : depth = 0 := hdepth
          exact ⟨[], between, us, .refl _ _, hus, rfl⟩
      | succ mid =>
        have hlength := Token.readInSet_length hread
        obtain ⟨vs, rest, ws, hwithin, hws, rfl⟩ := ih between.length (hn ▸ hlength) hus rfl
        exact ⟨front ++ vs, rest, ws, .step hread hwithin, hws, by rw [List.append_assoc]⟩

end AccessPolicy.Regex
