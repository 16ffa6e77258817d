import AccessPolicy.Proofs.Regex.Matches
import AccessPolicy.Regex.Reader
import Mathlib.Data.List.Forall2

/-!
# Texts that write expressions

An expression is put together as text, piece by piece, and read back as a whole.
Reading is described piece by piece here, so that what a composed text matches
follows from what its pieces match:

* `Writes written parts` — wherever `written` stands outside brackets, reading
  it appends `parts` to the branch being read, whatever surrounds it;
* `Spells text written i j` — the parts that `written` writes match between two
  positions of a text;
* one lemma for each way to compose texts: in sequence (`spells_append`), as a
  choice in parentheses (`spells_choice`), repeated (`spells_star`,
  `spells_plus`) and optional (`spells_opt`).
-/

namespace AccessPolicy.Regex

variable {text : List Char}

/-! ## One token at a time -/

/-- Outside brackets, the tokens of a text are those at its front and then those
of the rest. -/
theorem tokens?_outside (c : Char) (cs : List Char) :
    tokens? 0 (c :: cs) =
      (Token.readOutside c cs).bind fun (ts, next, rest) =>
        (tokens? next rest).map (ts ++ ·) := by
  rw [tokens?]
  cases h : Token.readOutside c cs with
  | none => simp
  | some front => simp

/-- Inside brackets, the tokens of a text are those at its front and then those
of the rest. -/
theorem tokens?_inside (depth : Nat) (c : Char) (cs : List Char) :
    tokens? (depth + 1) (c :: cs) =
      (Token.readInSet (depth + 1) (c :: cs)).bind fun (ts, next, rest) =>
        (tokens? next rest).map (ts ++ ·) := by
  rw [tokens?]
  cases h : Token.readInSet (depth + 1) (c :: cs) with
  | none => simp
  | some front => simp

theorem tokens?_of_readOutside {c : Char} {cs rest : List Char} {ts : List Token} {next : Nat}
    (h : Token.readOutside c cs = some (ts, next, rest)) :
    tokens? 0 (c :: cs) = (tokens? next rest).map (ts ++ ·) := by
  rw [tokens?_outside, h]
  rfl

theorem tokens?_of_readInSet {depth next : Nat} {c : Char} {cs rest : List Char}
    {ts : List Token} (h : Token.readInSet (depth + 1) (c :: cs) = some (ts, next, rest)) :
    tokens? (depth + 1) (c :: cs) = (tokens? next rest).map (ts ++ ·) := by
  rw [tokens?_inside, h]
  rfl

@[simp] theorem tokens?_nil : tokens? 0 [] = some [] := by
  rw [tokens?]
  rfl

/-- The text is cut into these tokens wherever it stands outside brackets. -/
def Cuts (written : List Char) (ts : List Token) : Prop :=
  ∀ rest, tokens? 0 (written ++ rest) = (tokens? 0 rest).map (ts ++ ·)

theorem Cuts.nil : Cuts [] [] := fun rest => by
  cases h : tokens? 0 rest <;> simp [h]

theorem Cuts.append {v w : List Char} {ts us : List Token} (hv : Cuts v ts) (hw : Cuts w us) :
    Cuts (v ++ w) (ts ++ us) := by
  intro rest
  rw [List.append_assoc, hv, hw]
  cases tokens? 0 rest <;> simp

/-- The front of a text that reads as whole tokens, whatever follows it. -/
theorem Cuts.of_readOutside {c : Char} {cs : List Char} {ts : List Token}
    (h : ∀ rest, Token.readOutside c (cs ++ rest) = some (ts, 0, rest)) :
    Cuts (c :: cs) ts := by
  intro rest
  rw [List.cons_append, tokens?_of_readOutside (h rest)]

/-- A character that reads as whole tokens, whatever follows it. -/
theorem Cuts.of_char {c : Char} {ts : List Token}
    (h : ∀ rest, Token.readOutside c rest = some (ts, 0, rest)) : Cuts [c] ts :=
  .of_readOutside h

theorem Cuts.tokens? {written : List Char} {ts : List Token} (h : Cuts written ts) :
    Regex.tokens? 0 written = some ts := by
  have := h []
  simpa using this

/-! ## Texts and the parts they write -/

/-- Wherever the text stands outside brackets, reading it appends these parts to
the branch being read. -/
def Writes (written : List Char) (parts : List Regex) : Prop :=
  ∃ ts, Cuts written ts ∧ ∀ r : Reader, r.sets = [] → ∃ after,
    r.run ts = some ⟨r.enclosing, ⟨r.current.done, parts.reverse ++ r.current.parts⟩, [], after⟩

theorem Writes.nil : Writes [] [] :=
  ⟨[], .nil, fun r hr => ⟨r.afterQuantifier, by simp [Reader.run, ← hr]⟩⟩

theorem Writes.append {v w : List Char} {rs ss : List Regex} (hv : Writes v rs)
    (hw : Writes w ss) : Writes (v ++ w) (rs ++ ss) := by
  obtain ⟨ts, hts, runs⟩ := hv
  obtain ⟨us, hus, runs'⟩ := hw
  refine ⟨ts ++ us, hts.append hus, fun r hr => ?_⟩
  obtain ⟨mid, hmid⟩ := runs r hr
  obtain ⟨after, hafter⟩ :=
    runs' ⟨r.enclosing, ⟨r.current.done, rs.reverse ++ r.current.parts⟩, [], mid⟩ rfl
  exact ⟨after, by rw [Reader.run_append, hmid, Option.bind_some, hafter]; simp⟩

/-- A text writes one sequence of parts only. -/
theorem Writes.unique {written : List Char} {rs ss : List Regex} (hr : Writes written rs)
    (hs : Writes written ss) : rs = ss := by
  obtain ⟨ts, hts, runs⟩ := hr
  obtain ⟨us, hus, runs'⟩ := hs
  have same : ts = us := by
    have := hts.tokens?.symm.trans hus.tokens?
    injection this
  subst same
  obtain ⟨after, h⟩ := runs .start rfl
  obtain ⟨after', h'⟩ := runs' .start rfl
  rw [h] at h'
  have parts : rs = ss ∧ after = after' := by simpa [Reader.start, Branches.empty] using h'
  exact parts.1

/-- A text that can be read at the front of an expression begins with no
quantifier, because there is nothing to repeat. -/
theorem Cuts.head_ne {written : List Char} {ts : List Token} (hts : Cuts written ts)
    {r : Reader} (hrun : Reader.start.run ts = some r) {c : Char} {cs : List Char}
    (hw : written = c :: cs) : c ≠ '?' := by
  intro h
  subst h
  subst hw
  have htokens := hts.tokens?
  rw [tokens?_outside] at htokens
  simp only [Token.readOutside, Option.bind_some, Option.map_eq_some_iff] at htokens
  obtain ⟨us, _, rfl⟩ := htokens
  simp [Reader.run, Reader.step, Reader.start, Reader.quantify, Branches.empty] at hrun

/-- A text that one token covers, and that token is a part. -/
theorem Writes.atom {c : Char} {cs : List Char} {part : Regex}
    (h : ∀ rest, Token.readOutside c (cs ++ rest) = some ([.atom part], 0, rest)) :
    Writes (c :: cs) [part] :=
  ⟨[.atom part], .of_readOutside h, fun r hr => ⟨false, by
    simp [Reader.run, Reader.step, Reader.push, Branches.push, hr]⟩⟩

/-- A quantifier behind a text repeats the part that the text writes. -/
theorem Writes.repeated {written : List Char} {part : Regex} (h : Writes written [part])
    {c : Char} {q : Quantifier}
    (hc : ∀ rest, Token.readOutside c rest = some ([.quantifier q], 0, rest))
    (hq : q ≠ .zeroOrOne) : Writes (written ++ [c]) [q.apply part] := by
  obtain ⟨ts, hts, runs⟩ := h
  refine ⟨ts ++ [.quantifier q], hts.append (.of_char hc), fun r hr => ?_⟩
  obtain ⟨after, hafter⟩ := runs r hr
  refine ⟨true, ?_⟩
  rw [Reader.run_append, hafter]
  simp [Reader.run, Reader.step, Reader.quantify, hq]

theorem Writes.star {written : List Char} {part : Regex} (h : Writes written [part]) :
    Writes (written ++ ['*']) [.star part] :=
  h.repeated (q := .zeroOrMore) (fun _ => rfl) (by decide)

theorem Writes.plus {written : List Char} {part : Regex} (h : Writes written [part]) :
    Writes (written ++ ['+']) [.plus part] :=
  h.repeated (q := .oneOrMore) (fun _ => rfl) (by decide)

/-! ## Choices -/

/-- What reading the branches of a choice leaves behind, where nothing is read
of the choice before: the branches, with the last one still open. -/
def WritesBranches (written : List Char) (branches : List (List Regex)) : Prop :=
  ∃ ts, Cuts written ts ∧ ∀ r : Reader, r.sets = [] → r.current.parts = [] →
    ∃ b after, r.run ts = some ⟨r.enclosing, b, [], after⟩ ∧
      b.next.done = (branches.map catAll).reverse ++ r.current.done

theorem WritesBranches.single {written : List Char} {parts : List Regex}
    (h : Writes written parts) : WritesBranches written [parts] := by
  obtain ⟨ts, hts, runs⟩ := h
  refine ⟨ts, hts, fun r hr hparts => ?_⟩
  obtain ⟨after, hafter⟩ := runs r hr
  exact ⟨_, after, hafter, by simp [Branches.next, hparts]⟩

theorem cuts_bar : Cuts ['|'] [.bar] := .of_char fun _ => rfl

/-- A bar stands between branches. -/
theorem WritesBranches.cons {v w : List Char} {parts : List Regex}
    {branches : List (List Regex)} (hv : Writes v parts) (hw : WritesBranches w branches) :
    WritesBranches (v ++ ['|'] ++ w) (parts :: branches) := by
  obtain ⟨ts, hts, runs⟩ := hv
  obtain ⟨us, hus, runs'⟩ := hw
  refine ⟨ts ++ [.bar] ++ us, (hts.append cuts_bar).append hus, fun r hr hparts => ?_⟩
  obtain ⟨mid, hmid⟩ := runs r hr
  obtain ⟨b, after, hafter, hdone⟩ :=
    runs' ⟨r.enclosing, ⟨catAll parts :: r.current.done, []⟩, [], false⟩ rfl rfl
  refine ⟨b, after, ?_, ?_⟩
  · rw [Reader.run_append, Reader.run_append, hmid]
    simpa [Reader.run, Reader.step, Branches.next, hparts] using hafter
  · rw [hdone]
    simp

/-- Texts joined by bars write their branches. -/
theorem WritesBranches.intercalate {ws : List (List Char)} {branches : List (List Regex)}
    (h : List.Forall₂ Writes ws branches) (hne : ws ≠ []) :
    WritesBranches (['|'].intercalate ws) branches := by
  induction h with
  | nil => exact absurd rfl hne
  | cons hw hrest ih =>
    cases hrest with
    | nil => simpa using WritesBranches.single hw
    | cons hnext hrest =>
      simpa [List.intercalate] using WritesBranches.cons hw (ih (by simp))

/-- The text is an opening parenthesis in front of `body`. -/
def Opens (opening body : List Char) : Prop :=
  ∀ rest, tokens? 0 (opening ++ (body ++ ')' :: rest)) =
    (tokens? 0 (body ++ ')' :: rest)).map (.groupOpen :: ·)

theorem opens_uncaptured (body : List Char) : Opens "(?:".toList body := by
  intro rest
  exact tokens?_outside '(' ('?' :: ':' :: (body ++ ')' :: rest))

theorem WritesBranches.opens {body : List Char} {branches : List (List Regex)}
    (h : WritesBranches body branches) : Opens ['('] body := by
  intro rest
  obtain ⟨ts, hts, runs⟩ := h
  obtain ⟨b, after, hrun, _⟩ := runs .start rfl rfl
  have front : Token.readOutside '(' (body ++ ')' :: rest) =
      some ([.groupOpen], 0, body ++ ')' :: rest) := by
    cases body with
    | nil => rfl
    | cons c cs =>
      have hc : c ≠ '?' := hts.head_ne hrun rfl
      simp [Token.readOutside, hc]
  exact tokens?_of_readOutside front

/-- Branches in parentheses are read as one part, a group. -/
theorem WritesBranches.group {opening body : List Char} {branches : List (List Regex)}
    (hopen : Opens opening body) (h : WritesBranches body branches) :
    ∃ ts, Cuts (opening ++ body ++ [')']) ts ∧ ∀ r : Reader, r.sets = [] →
      r.run ts = some ⟨r.enclosing, r.current.push (.group (altAll (branches.map catAll))),
        [], false⟩ := by
  obtain ⟨ts, hts, runs⟩ := h
  refine ⟨.groupOpen :: ts ++ [.groupClose], ?_, ?_⟩
  · intro rest
    have close : Cuts [')'] [.groupClose] := .of_char fun _ => rfl
    have tail := (hts.append close) rest
    rw [List.append_assoc, List.singleton_append] at tail
    rw [List.append_assoc, List.append_assoc, List.singleton_append, hopen rest, tail]
    cases tokens? 0 rest <;> simp
  · intro r hr
    obtain ⟨b, after, hrun, hdone⟩ :=
      runs ⟨r.current :: r.enclosing, .empty, r.sets, false⟩ hr rfl
    have inside : r.run (.groupOpen :: ts) = some ⟨r.current :: r.enclosing, b, [], after⟩ := by
      simp only [Reader.run, Reader.step, Option.bind_some]
      exact hrun
    rw [Reader.run_append, inside]
    simp only [Reader.run, Reader.step, Reader.closeGroup, Option.bind_some, Branches.toRegex,
      hdone]
    simp [Branches.empty]

/-- Branches in parentheses write a group. -/
theorem Writes.choice {opening body : List Char} {branches : List (List Regex)}
    (hopen : Opens opening body) (h : WritesBranches body branches) :
    Writes (opening ++ body ++ [')']) [.group (altAll (branches.map catAll))] := by
  obtain ⟨ts, hts, runs⟩ := h.group hopen
  exact ⟨ts, hts, fun r hr => ⟨false, by rw [runs r hr]; rfl⟩⟩

/-- A group with a question mark behind it is optional. -/
theorem Writes.optional {opening body : List Char} {branches : List (List Regex)}
    (hopen : Opens opening body) (h : WritesBranches body branches) :
    Writes (opening ++ body ++ [')'] ++ ['?'])
      [.opt (.group (altAll (branches.map catAll)))] := by
  obtain ⟨ts, hts, runs⟩ := h.group hopen
  refine ⟨ts ++ [.quantifier .zeroOrOne], hts.append (.of_char fun _ => rfl), fun r hr => ?_⟩
  exact ⟨true, by rw [Reader.run_append, runs r hr]; rfl⟩

/-! ## What a text spells -/

/-- The text can be read as a piece of an expression. -/
def Readable (written : List Char) : Prop := ∃ parts, Writes written parts

/-- The parts that `written` writes match between two positions. -/
def Spells (text written : List Char) (i j : Nat) : Prop :=
  ∃ parts, Writes written parts ∧ MatchesAll text parts i j

theorem Writes.spells_iff {written : List Char} {parts : List Regex} (h : Writes written parts)
    {i j : Nat} : Spells text written i j ↔ MatchesAll text parts i j := by
  refine ⟨?_, ?_⟩
  · intro h
    obtain ⟨rs, hrs, hm⟩ := h
    exact hrs.unique h ▸ hm
  · intro hm
    exact ⟨parts, h, hm⟩

/-- The text of one part spells what the part matches. -/
theorem Writes.spells_one {written : List Char} {r : Regex} (h : Writes written [r]) {i j : Nat} :
    Spells text written i j ↔ Matches text r i j :=
  h.spells_iff.trans matchesAll_singleton

theorem Writes.spells_set {written : List Char} {s : CharSet} (h : Writes written [.set s])
    {i j : Nat} : Spells text written i j ↔
      j = i + 1 ∧ ∃ c, text[i]? = some c ∧ s.contains c = true :=
  h.spells_one.trans matches_set

theorem readable_nil : Readable [] := ⟨[], .nil⟩

@[simp] theorem spells_nil {i j : Nat} : Spells text [] i j ↔ i = j :=
  Writes.nil.spells_iff

theorem Readable.append {v w : List Char} (hv : Readable v) (hw : Readable w) :
    Readable (v ++ w) := by
  obtain ⟨rs, hv⟩ := hv
  obtain ⟨ss, hw⟩ := hw
  exact ⟨rs ++ ss, hv.append hw⟩

/-- Texts in a row match in a row. -/
theorem spells_append {v w : List Char} (hv : Readable v) (hw : Readable w) {i j : Nat} :
    Spells text (v ++ w) i j ↔ ∃ k, Spells text v i k ∧ Spells text w k j := by
  obtain ⟨rs, hv⟩ := hv
  obtain ⟨ss, hw⟩ := hw
  simp only [(hv.append hw).spells_iff, hv.spells_iff, hw.spells_iff, matchesAll_append]

/-- A group matches what one of its branches matches. -/
theorem matches_branches {branches : List (List Regex)} (hne : branches ≠ []) {i j : Nat} :
    Matches text (.group (altAll (branches.map catAll))) i j ↔
      ∃ parts ∈ branches, MatchesAll text parts i j := by
  rw [matches_group, matches_altAll (by simpa using hne)]
  simp only [List.mem_map, exists_exists_and_eq_and, matches_catAll]

/-- A readable text in parentheses with a question mark behind it matches what
the text matches, or nothing. -/
theorem spells_optional {body : List Char} (h : Readable body) :
    Readable ("(?:".toList ++ body ++ [')'] ++ ['?']) ∧ ∀ text i j,
      Spells text ("(?:".toList ++ body ++ [')'] ++ ['?']) i j ↔ i = j ∨ Spells text body i j := by
  obtain ⟨parts, hparts⟩ := h
  have hw := Writes.optional (opens_uncaptured body) (.single hparts)
  refine ⟨⟨_, hw⟩, fun text i j => ?_⟩
  rw [hw.spells_one, matches_opt, matches_branches (by simp),
    hparts.spells_iff]
  simp

theorem exists_branches {ws : List (List Char)} (h : ∀ w ∈ ws, Readable w) :
    ∃ branches, List.Forall₂ Writes ws branches := by
  induction ws with
  | nil => exact ⟨[], .nil⟩
  | cons w ws ih =>
    obtain ⟨parts, hw⟩ := h w List.mem_cons_self
    obtain ⟨branches, hws⟩ := ih fun v hv => h v (List.mem_cons_of_mem _ hv)
    exact ⟨parts :: branches, .cons hw hws⟩

theorem spells_of_branches {ws : List (List Char)} {branches : List (List Regex)}
    (h : List.Forall₂ Writes ws branches) {i j : Nat} :
    (∃ parts ∈ branches, MatchesAll text parts i j) ↔ ∃ w ∈ ws, Spells text w i j := by
  induction h with
  | nil => simp
  | cons hw _ ih => simp [hw.spells_iff, ih]

/-- Texts joined by bars in parentheses write a group. -/
theorem writes_choice {opening : List Char} {ws : List (List Char)}
    {branches : List (List Regex)} (hne : ws ≠ [])
    (hopen : opening = ['('] ∨ opening = "(?:".toList) (h : List.Forall₂ Writes ws branches) :
    Writes (opening ++ ['|'].intercalate ws ++ [')'])
      [.group (altAll (branches.map catAll))] := by
  have hbody := WritesBranches.intercalate h hne
  have hopens : Opens opening (['|'].intercalate ws) := by
    rcases hopen with rfl | rfl
    · exact hbody.opens
    · exact opens_uncaptured _
  exact Writes.choice hopens hbody

/-- Readable texts joined by bars in parentheses are readable, and match what
one of them matches. -/
theorem spells_choice {opening : List Char} {ws : List (List Char)} (hne : ws ≠ [])
    (hopen : opening = ['('] ∨ opening = "(?:".toList) (h : ∀ w ∈ ws, Readable w) :
    Readable (opening ++ ['|'].intercalate ws ++ [')']) ∧
      ∀ text i j, Spells text (opening ++ ['|'].intercalate ws ++ [')']) i j ↔
        ∃ w ∈ ws, Spells text w i j := by
  obtain ⟨branches, hbranches⟩ := exists_branches h
  have hb : branches ≠ [] := by
    intro h
    subst h
    cases hbranches
    exact hne rfl
  have hw := writes_choice hne hopen hbranches
  refine ⟨⟨_, hw⟩, fun text i j => ?_⟩
  rw [hw.spells_one, matches_branches hb, spells_of_branches hbranches]

/-! ## Whole expressions -/

/-- No expression that the text writes nests deeper than the limit. -/
def WithinNestLimit (written : List Char) : Prop :=
  ∀ ts r, tokens? 0 written = some ts → ofTokens? ts = some r → r.depth ≤ nestLimit

theorem withinNestLimit_of_read? {written : List Char}
    (h : (Regex.read? written).isSome = true) : WithinNestLimit written := by
  intro ts r hts hr
  simp only [Regex.read?, hts, hr, Option.bind_eq_bind, Option.bind_some] at h
  split at h
  · assumption
  · cases h

theorem depth_cat_le (r s : Regex) : (cat r s).depth ≤ max r.depth s.depth + 1 := by
  cases s with
  | cat a b =>
    simp only [depth]
    omega
  | _ => simp [depth]

/-- The parts of a sequence stand on one level. -/
theorem depth_catAll {n : Nat} {rs : List Regex} (h : ∀ r ∈ rs, r.depth ≤ n) :
    (catAll rs).depth ≤ n + 1 := by
  match rs with
  | [] => exact Nat.zero_le _
  | [r] =>
    rw [List.forall_mem_singleton] at h
    exact Nat.le_succ_of_le h
  | [r, s] =>
    rw [List.forall_mem_cons, List.forall_mem_singleton] at h
    have both := depth_cat_le r s
    show (cat r s).depth ≤ n + 1
    omega
  | r :: s :: t :: rs =>
    rw [List.forall_mem_cons] at h
    have rest := depth_catAll h.2
    show max (r.depth + 1) (catAll (s :: t :: rs)).depth ≤ n + 1
    omega

/-- A text that writes parts is cut into tokens that write their sequence. -/
theorem Writes.exists_tokens {written : List Char} {parts : List Regex}
    (h : Writes written parts) :
    ∃ ts, tokens? 0 written = some ts ∧ ofTokens? ts = some (catAll parts) := by
  obtain ⟨ts, hts, runs⟩ := h
  obtain ⟨after, hrun⟩ := runs .start rfl
  refine ⟨ts, hts.tokens?, ?_⟩
  rw [ofTokens?, hrun]
  simp [Reader.finish, Reader.start, Branches.empty, Branches.toRegex, Branches.next, altAll]

/-- A text is within the limit when the sequence of its parts is. -/
theorem Writes.withinNestLimit_iff {written : List Char} {parts : List Regex}
    (h : Writes written parts) :
    WithinNestLimit written ↔ (catAll parts).depth ≤ nestLimit := by
  obtain ⟨ts, hts, whole⟩ := h.exists_tokens
  refine ⟨fun hlimit => hlimit ts _ hts whole, fun hdepth us r hus hr => ?_⟩
  obtain rfl : ts = us := Option.some.inj (hts.symm.trans hus)
  obtain rfl : catAll parts = r := Option.some.inj (whole.symm.trans hr)
  exact hdepth

/-- A text is within the limit when the parts that it writes stay below it. -/
theorem Writes.withinNestLimit {written : List Char} {parts : List Regex} {n : Nat}
    (h : Writes written parts) (hn : n < nestLimit) (hparts : ∀ r ∈ parts, r.depth ≤ n) :
    WithinNestLimit written := by
  have depth := depth_catAll hparts
  exact h.withinNestLimit_iff.2 (by omega)

/-- A text that writes parts is read as their sequence. -/
theorem Writes.read? {written : List Char} {parts : List Regex} (h : Writes written parts)
    (hlimit : WithinNestLimit written) : Regex.read? written = some (catAll parts) := by
  obtain ⟨ts, hts, whole⟩ := h.exists_tokens
  have depth := hlimit ts _ hts whole
  simp [Regex.read?, hts, whole, depth]

/-- A text that writes parts is read when their sequence is within the limit. -/
theorem Writes.isSome_read?_iff {written : List Char} {parts : List Regex}
    (h : Writes written parts) :
    (Regex.read? written).isSome = true ↔ (catAll parts).depth ≤ nestLimit := by
  rw [← h.withinNestLimit_iff]
  exact ⟨withinNestLimit_of_read?, fun hlimit => Option.isSome_of_eq_some (h.read? hlimit)⟩

/-- The text between its anchors. -/
theorem Writes.anchored {body : List Char} {parts : List Regex} (h : Writes body parts) :
    Writes (['^'] ++ body ++ ['$'])
      ([.assert .textStart] ++ parts ++ [.assert .textEnd]) :=
  ((Writes.atom fun _ => rfl).append h).append (Writes.atom fun _ => rfl)

/-- Between its anchors an expression is found iff it matches the whole text. -/
theorem found_anchored {parts : List Regex} :
    Found (catAll ([.assert .textStart] ++ parts ++ [.assert .textEnd])) text ↔
      MatchesAll text parts 0 text.length := by
  simp only [Found, matches_catAll, matchesAll_append, matchesAll_singleton,
    matches_textStart, matches_textEnd]
  refine ⟨?_, ?_⟩
  · intro h
    obtain ⟨i, j, _, k, ⟨m, ⟨rfl, rfl⟩, hm⟩, rfl, _⟩ := h
    exact hm
  · intro hm
    exact ⟨0, text.length, Nat.zero_le _, _, ⟨0, ⟨rfl, rfl⟩, hm⟩, rfl, rfl⟩

end AccessPolicy.Regex
