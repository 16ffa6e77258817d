import AccessPolicy.Proofs.Regex.Alone

/-!
# A set without the separator

A set that is written with a bracket or a backslash can be put into brackets and met there
with all characters but the separator (`exists_writes_meet`). Inside brackets it is read as
the same set, with one exception: `[:digit:]` and its like are names there, and on their own
they are sets of letters and colons. Those do not hold the separator.
-/

namespace AccessPolicy.Regex

/-- The set met with all characters but the separator. -/
def CharSet.withoutSeparator (s : CharSet) : CharSet :=
  .bracket false (.op .inter s (.bracket true (.single '/')))

theorem CharSet.contains_withoutSeparator (s : CharSet) (c : Char) :
    s.withoutSeparator.contains c = (s.contains c && c != '/') := by
  simp [withoutSeparator, contains, bne]

theorem CharSet.depth_withoutSeparator (s : CharSet) :
    s.withoutSeparator.depth = max s.depth 1 + 2 := rfl

/-- Behind a set inside brackets: its part without the separator, and the closing
bracket. -/
def butSeparator : List Char := "&&[^/]]".toList

/-- The operator and the set on its right, and the bracket that closes around both. -/
def meetTokens : List Token :=
  [.setOp .inter, .setOpen true, .setMember (.single '/'), .setClose, .setClose]

theorem tokens?_butSeparator (rest : List Char) :
    tokens? 1 (butSeparator ++ rest) = (tokens? 0 rest).map (meetTokens ++ ·) := by
  have meet : Token.readInSet 1 ('&' :: ("&[^/]]".toList ++ rest)) =
      some ([.setOp .inter], 1, '[' :: ("^/]]".toList ++ rest)) := rfl
  have inner : Token.readInSet 1 ('[' :: ("^/]]".toList ++ rest)) =
      some ([.setOpen true], 2, '/' :: ("]]".toList ++ rest)) := rfl
  have slash : Token.readInSet 2 ('/' :: ("]]".toList ++ rest)) =
      some ([.setMember (.single '/')], 2, ']' :: ("]".toList ++ rest)) := rfl
  have closing : Token.readInSet 2 (']' :: ("]".toList ++ rest)) =
      some ([.setClose], 1, ']' :: rest) := rfl
  have last : Token.readInSet 1 (']' :: rest) = some ([.setClose], 0, rest) := rfl
  show tokens? 1 ('&' :: ("&[^/]]".toList ++ rest)) = _
  rw [tokens?_of_readInSet meet, tokens?_of_readInSet inner, tokens?_of_readInSet slash,
    tokens?_of_readInSet closing, tokens?_of_readInSet last]
  cases tokens? 0 rest <;> rfl

/-- A set inside brackets, met with the set of all characters but the separator. -/
theorem writes_meet {text : List Char} (ts : List Token) {s : CharSet}
    (hopen : ∀ more, Token.readSetOpen (text ++ more) = ([.setOpen false], text ++ more))
    (hcut : ∀ rest, tokens? 1 (text ++ (butSeparator ++ rest)) =
      (tokens? 1 (butSeparator ++ rest)).map (ts ++ ·))
    (hset : runSets [⟨false, none, []⟩] ts = some [⟨false, none, [s]⟩]) :
    Writes (['['] ++ text ++ butSeparator) [.set s.withoutSeparator] := by
  have cuts : Cuts (['['] ++ text ++ butSeparator) (.setOpen false :: ts ++ meetTokens) := by
    intro rest
    have opening : Token.readOutside '[' (text ++ (butSeparator ++ rest)) =
        some ([.setOpen false], 1, text ++ (butSeparator ++ rest)) := by
      show some _ = _
      rw [hopen]
    rw [List.append_assoc, List.append_assoc, List.singleton_append,
      tokens?_of_readOutside opening, hcut, tokens?_butSeparator]
    cases tokens? 0 rest <;> simp
  refine ⟨_, cuts, fun r hr => ⟨false, ?_⟩⟩
  have opened : r.step (.setOpen false) = some { r with sets := [⟨false, none, []⟩] } := by
    rw [Reader.step, hr]
  rw [List.cons_append, Reader.run, opened, Option.bind_some, Reader.run_append,
    Reader.run_of_runSets hset _ [] rfl]
  rfl

/-- A plain character inside a bracket, with another or the closing bracket behind it. -/
theorem Token.readInSet_plain {depth : Nat} {c d : Char} {cs : List Char}
    (hc : c == ':' || c == '^' || c.isAlpha) (hd : d ≠ '-') :
    readInSet depth (c :: d :: cs) = some ([.setMember (.single c)], depth, d :: cs) := by
  have hne : c ≠ '[' ∧ c ≠ ']' ∧ c ≠ '&' ∧ c ≠ '-' ∧ c ≠ '~' ∧ c ≠ '\\' := by
    refine ⟨?_, ?_, ?_, ?_, ?_, ?_⟩ <;>
    · rintro rfl
      exact absurd hc (by decide)
  unfold readInSet
  split <;> simp_all [readMember, readEnd, memberOfEscape?]

/-- Inside brackets, plain characters are members, and the set ends at the first closing
bracket. -/
theorem Within.eq_of_plain {plain rest : List Char} {vs : List Token}
    (hplain : ∀ c ∈ plain, c == ':' || c == '^' || c.isAlpha)
    (h : Within 0 (plain ++ ']' :: rest) vs 0 [']']) :
    rest = [] ∧ vs = plain.map fun c => .setMember (.single c) := by
  induction plain generalizing vs with
  | nil =>
    cases h with
    | refl => exact ⟨rfl, rfl⟩
    | step hread _ => cases hread
  | cons c plain ih =>
    rw [List.forall_mem_cons] at hplain
    obtain ⟨d, more, hmore, hd⟩ : ∃ d more, plain ++ ']' :: rest = d :: more ∧ d ≠ '-' := by
      cases plain with
      | nil => exact ⟨']', rest, rfl, by decide⟩
      | cons d plain =>
        refine ⟨d, _, rfl, ?_⟩
        rintro rfl
        exact absurd (hplain.2 _ List.mem_cons_self) (by decide)
    generalize hcs : c :: plain ++ ']' :: rest = cs at h
    cases h with
    | refl =>
      rw [List.cons_append, hmore] at hcs
      cases hcs
    | step hread hrest =>
      rw [← hcs, List.cons_append, hmore, Token.readInSet_plain hplain.1 hd] at hread
      simp only [Option.some.injEq, Prod.mk.injEq] at hread
      obtain ⟨rfl, hmid, rfl⟩ := hread
      obtain rfl : _ = 0 := (Nat.succ.inj hmid).symm
      rw [← hmore] at hrest
      obtain ⟨rfl, rfl⟩ := ih hplain.2 hrest
      exact ⟨rfl, rfl⟩

/-- A set of plain characters does not hold the separator. -/
theorem Within.not_contains_of_plain {plain : List Char} {vs : List Token} {closed : OpenSet}
    (hplain : ∀ c ∈ plain, c == ':' || c == '^' || c.isAlpha)
    (h : Within 0 (plain ++ [']']) vs 0 [']'])
    (hclosed : Regex.runSets [⟨false, none, []⟩] vs = some [closed]) :
    closed.toCharSet.contains '/' = false := by
  obtain ⟨_, rfl⟩ := h.eq_of_plain hplain
  have read := runSets_setMembers (plain.map .single) ⟨false, none, []⟩ []
  rw [List.map_map] at read
  obtain ⟨rfl, _⟩ := List.cons.inj (Option.some.inj (hclosed.symm.trans read))
  have apart : ∀ c ∈ plain, '/' ≠ c := by
    rintro c hc rfl
    exact absurd (hplain _ hc) (by decide)
  simpa [OpenSet.toCharSet, OpenSet.body, CharSet.contains, CharSet.contains_unionAll] using apart

theorem writes_meet_escape {cs : List Char} {s : CharSet}
    (h : Token.readOutside '\\' cs = some ([.atom (.set s)], 0, [])) :
    Writes (['['] ++ ('\\' :: cs) ++ butSeparator) [.set s.withoutSeparator] := by
  obtain ⟨e, hread, hatom⟩ := Token.exists_readEscape h
  have member : Token.memberOfEscape? e = some s := by
    cases e <;> cases hatom <;> rfl
  refine writes_meet [.setMember s] (fun _ => rfl) (fun rest => ?_) rfl
  have front : Token.readInSet 1 ('\\' :: (cs ++ (butSeparator ++ rest))) =
      some ([.setMember s], 1, butSeparator ++ rest) := by
    show (Token.readMember ('\\' :: (cs ++ (butSeparator ++ rest)))).map _ = _
    have first : Token.readEnd ('\\' :: (cs ++ (butSeparator ++ rest))) =
        some (e, butSeparator ++ rest) := Token.readEscape_append hread _
    have taken : Token.readMember ('\\' :: (cs ++ (butSeparator ++ rest))) =
        some (s, butSeparator ++ rest) := by
      rw [Token.readMember, first]
      show (Token.memberOfEscape? e).map _ = _
      rw [member]
      rfl
    rw [taken]
    rfl
  exact tokens?_of_readInSet front

/-- What is met inside brackets is the bracketed set itself, unless its text is the name of
a set there. -/
theorem exists_writes_meet_bracket {cs : List Char} {vs : List Token} {opened closed : OpenSet}
    (hopened : runSets [] (Token.readSetOpen cs).1 = some [opened])
    (hwithin : Within 0 (Token.readSetOpen cs).2 vs 0 [']'])
    (hclosed : runSets [opened] vs = some [closed]) :
    ∃ m : CharSet, Writes (['['] ++ ('[' :: cs) ++ butSeparator) [.set m.withoutSeparator] ∧
      (m = closed.toCharSet ∨ closed.toCharSet.contains '/' = false) := by
  have hclose : ']' ∈ cs := by
    obtain ⟨taken, hcs, _⟩ := Token.settles_setOpen cs
    exact hcs ▸ List.mem_append_right taken hwithin.close_mem
  cases hnamed : Token.readNamedSet cs with
  | some named =>
    obtain ⟨s, behind⟩ := named
    obtain ⟨negated, name, p, rfl, hp, _⟩ := Token.readNamedSet_eq_some_iff.1 hnamed
    have plain : ∀ c ∈ Token.namedText negated name, c == ':' || c == '^' || c.isAlpha :=
      Token.plain_namedText hp
    cases hopened
    obtain ⟨rfl, _⟩ := hwithin.eq_of_plain plain
    refine ⟨s, writes_meet [.setMember s] (fun _ => rfl) (fun rest => ?_) rfl,
      .inr (hwithin.not_contains_of_plain plain hclosed)⟩
    have appended := Token.readNamedSet_append hclose (butSeparator ++ rest)
    rw [hnamed] at appended
    have front : Token.readInSet 1 ('[' :: (Token.namedText negated name ++ [']'] ++
        (butSeparator ++ rest))) = some ([.setMember s], 1, butSeparator ++ rest) := by
      rw [Token.readInSet, appended]
      rfl
    exact tokens?_of_readInSet front
  | none =>
    refine ⟨closed.toCharSet, writes_meet ((Token.readSetOpen cs).1 ++ (vs ++ [.setClose]))
      (fun _ => rfl) (fun rest => ?_) ?_, .inl rfl⟩
    · have front : Token.readInSet 1 ('[' :: (cs ++ (butSeparator ++ rest))) =
          some ((Token.readSetOpen cs).1, 2,
            (Token.readSetOpen cs).2 ++ (butSeparator ++ rest)) := by
        rw [Token.readInSet, Token.readNamedSet_append hclose, hnamed,
          Token.readSetOpen_append hwithin.close_mem]
        rfl
      have closing : Token.readInSet 2 (']' :: (butSeparator ++ rest)) =
          some ([.setClose], 1, butSeparator ++ rest) := rfl
      have inside := (hwithin.append List.mem_cons_self (butSeparator ++ rest)).deeper.tokens?
      rw [List.singleton_append, tokens?_of_readInSet closing] at inside
      rw [List.cons_append, tokens?_of_readInSet front, inside]
      cases tokens? 1 (butSeparator ++ rest) <;> simp
    · have front := runSets_around hopened [⟨false, none, []⟩]
      have inside := runSets_around hclosed [⟨false, none, []⟩]
      rw [List.nil_append] at front
      rw [runSets_append, front, Option.bind_some, runSets_append, inside]
      rfl

/-- A set that is written with a bracket or a backslash can be met inside brackets with
all characters but the separator. It is the set itself that is met there, if it holds the
separator. -/
theorem exists_writes_meet {text : List Char} {s : CharSet} (h : read? text = some (.set s))
    (hsign : text.head? = some '[' ∨ text.head? = some '\\') :
    ∃ m : CharSet, Writes (['['] ++ text ++ butSeparator) [.set m.withoutSeparator] ∧
      (m = s ∨ s.contains '/' = false) := by
  cases alone_of_read? h rfl with
  | @token c cs _ hread =>
    have hc : c = '\\' := by
      rcases hsign with hsign | hsign
      · rw [Option.some.inj hsign] at hread
        exact absurd hread (by simp [Token.readOutside])
      · exact Option.some.inj hsign
    subst hc
    exact ⟨s, writes_meet_escape hread, .inl rfl⟩
  | bracket hopened hwithin hclosed => exact exists_writes_meet_bracket hopened hwithin hclosed

/-- A set that holds the separator is met as itself. -/
theorem writes_withoutSeparator {text : List Char} {s : CharSet}
    (h : read? text = some (.set s)) (hsign : text.head? = some '[' ∨ text.head? = some '\\')
    (hsep : s.contains '/' = true) :
    Writes (['['] ++ text ++ butSeparator) [.set s.withoutSeparator] := by
  obtain ⟨m, hm, rfl | hnot⟩ := exists_writes_meet h hsign
  · exact hm
  · exact absurd (hnot.symm.trans hsep) (by decide)

end AccessPolicy.Regex
