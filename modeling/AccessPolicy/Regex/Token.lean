import AccessPolicy.Regex.Basic

/-!
# Tokens of a written expression

A written expression is cut into tokens before it is read. Outside brackets a
token is a set, an assertion, a parenthesis, a bar or a quantifier; inside
brackets it opens or closes a bracketed set, names members or is an operator.
Where a text cannot be cut, the expression is refused.

The depth that `tokens?` carries is the number of brackets still open.

Flags as in `(?i)`, named groups, counted repetitions and properties other than the
one-letter categories are no tokens here: an expression that holds one is refused.
A glob writes none of them. They can stand in the text of a set only, and behind a
set that does not close, since such text is passed on as it is.
-/

namespace AccessPolicy.Regex

open AccessPolicy.Text

/-- How often the part before it may occur. -/
inductive Quantifier where
  | zeroOrMore
  | oneOrMore
  | zeroOrOne
deriving DecidableEq, Repr

/-- The part, repeated as the quantifier says. -/
def Quantifier.apply : Quantifier → Regex → Regex
  | zeroOrMore, r => star r
  | oneOrMore, r => plus r
  | zeroOrOne, r => opt r

/-- A token of a written expression. -/
inductive Token where
  | atom (r : Regex)
  | bar
  | groupOpen
  | groupClose
  | quantifier (q : Quantifier)
  | setOpen (negated : Bool)
  | setMember (s : CharSet)
  | setOp (o : SetOp)
  | setClose
deriving DecidableEq, Repr

/-- What a backslash and the characters after it stand for. -/
inductive Escape where
  | char (c : Char)
  | set (s : CharSet)
  | assertion (a : Assertion)
deriving DecidableEq, Repr

namespace Token

/-- The value of a digit to base sixteen. -/
def hexValue? (c : Char) : Option Nat :=
  if c.isDigit then some (c.toNat - 48)
  else if 'a' ≤ c && c ≤ 'f' then some (c.toNat - 87)
  else if 'A' ≤ c && c ≤ 'F' then some (c.toNat - 55)
  else none

/-- The character whose number is written to base sixteen. -/
def charOfHex? (digits : List Char) : Option Char := do
  let values ← digits.mapM hexValue?
  let number := values.foldl (fun sum digit => 16 * sum + digit) 0
  if number.isValidChar then some (Char.ofNat number) else none

/-- A character given by its number: exactly `width` digits, or any positive
number of them in braces. -/
def readHex (width : Nat) : List Char → Option (Char × List Char)
  | '\x7b' :: cs =>
    match cs.dropWhile (· != '\x7d') with
    | [] => none
    | _ :: rest =>
      if cs.head? == some '\x7d' then none
      else (charOfHex? (cs.takeWhile (· != '\x7d'))).map fun c => (c, rest)
  | cs =>
    if (cs.take width).length = width then
      (charOfHex? (cs.take width)).map fun c => (c, cs.drop width)
    else none

/-- The name of a category: one letter, or a name in braces. -/
def readCategory : List Char → Option (Category × List Char)
  | [] => none
  | '\x7b' :: cs =>
    match cs.dropWhile (· != '\x7d') with
    | [] => none
    | _ :: rest => (Category.ofName? (cs.takeWhile (· != '\x7d'))).map fun name => (name, rest)
  | c :: cs => (Category.ofName? [c]).map fun name => (name, cs)

/-- Whether a backslash before the character makes it stand for itself. -/
def isEscapable (c : Char) : Bool :=
  c.toNat < 128 && !c.isAlphanum && c != '<' && c != '>'

/-- What follows a backslash. -/
def readEscape : List Char → Option (Escape × List Char)
  | [] => none
  | c :: cs =>
    match c with
    | 'x' => (readHex 2 cs).map fun (d, rest) => (.char d, rest)
    | 'u' => (readHex 4 cs).map fun (d, rest) => (.char d, rest)
    | 'U' => (readHex 8 cs).map fun (d, rest) => (.char d, rest)
    | 'p' => (readCategory cs).map fun (name, rest) =>
        (.set (.property false (.category name)), rest)
    | 'P' => (readCategory cs).map fun (name, rest) =>
        (.set (.property true (.category name)), rest)
    | 'd' => some (.set (.property false .digit), cs)
    | 'D' => some (.set (.property true .digit), cs)
    | 's' => some (.set (.property false .space), cs)
    | 'S' => some (.set (.property true .space), cs)
    | 'w' => some (.set (.property false .word), cs)
    | 'W' => some (.set (.property true .word), cs)
    | 'a' => some (.char '\x07', cs)
    | 'f' => some (.char '\x0c', cs)
    | 't' => some (.char '\t', cs)
    | 'n' => some (.char '\n', cs)
    | 'r' => some (.char '\r', cs)
    | 'v' => some (.char '\x0b', cs)
    | 'A' => some (.assertion .textStart, cs)
    | 'z' => some (.assertion .textEnd, cs)
    | 'b' => some (.assertion .wordBoundary, cs)
    | 'B' => some (.assertion .notWordBoundary, cs)
    | '<' => some (.assertion .wordStart, cs)
    | '>' => some (.assertion .wordEnd, cs)
    | c => if isEscapable c then some (.char c, cs) else none

/-! ## Inside brackets -/

/-- The member of a set that an escape stands for. Assertions are no members. -/
def memberOfEscape? : Escape → Option CharSet
  | .char c => some (.single c)
  | .set s => some s
  | .assertion _ => none

/-- One end of a range: an escape, or any character. -/
def readEnd : List Char → Option (Escape × List Char)
  | [] => none
  | '\\' :: cs => readEscape cs
  | c :: cs => some (.char c, cs)

/-- A range between two characters, where the first is not above the last. -/
def rangeOf? : Escape → Escape → Option CharSet
  | .char first, .char last => if first ≤ last then some (.range first last) else none
  | _, _ => none

/-- A member of a bracketed set. A hyphen makes a range unless it stands before
the closing bracket or before another hyphen. -/
def readMember (cs : List Char) : Option (CharSet × List Char) := do
  let (first, rest) ← readEnd cs
  match rest with
  | '-' :: c :: more =>
    if c == ']' || c == '-' then
      (memberOfEscape? first).map fun s => (s, rest)
    else
      let (last, rest) ← readEnd (c :: more)
      (rangeOf? first last).map fun s => (s, rest)
  | _ => (memberOfEscape? first).map fun s => (s, rest)

/-- A named set, `:name:]` or `:^name:]`, after its opening bracket. -/
def readNamedSet (cs : List Char) : Option (CharSet × List Char) :=
  match cs with
  | ':' :: rest =>
    let negated := rest.head? == some '^'
    let body := if negated then rest.drop 1 else rest
    match body.dropWhile (· != ':') with
    | ':' :: ']' :: rest =>
      (Property.ofAsciiName? (body.takeWhile (· != ':'))).map fun name =>
        (.property negated name, rest)
    | _ => none
  | _ => none

/-- The tokens of an opening bracket, which is already taken: hyphens that
follow it are members, and so is a closing bracket right behind it. -/
def readSetOpen (cs : List Char) : List Token × List Char :=
  let negated := cs.head? == some '^'
  let cs := if negated then cs.drop 1 else cs
  let hyphens := cs.takeWhile (· == '-')
  let rest := cs.dropWhile (· == '-')
  let opening := setOpen negated :: hyphens.map fun c => setMember (.single c)
  match hyphens, rest with
  | [], ']' :: rest => (opening ++ [setMember (.single ']')], rest)
  | _, _ => (opening, rest)

/-- The tokens at the front of a text inside brackets, with the depth behind
them. -/
def readInSet (depth : Nat) (cs : List Char) : Option (List Token × Nat × List Char) :=
  match cs with
  | '[' :: rest =>
    match readNamedSet rest with
    | some (s, rest) => some ([setMember s], depth, rest)
    | none => some ((readSetOpen rest).1, depth + 1, (readSetOpen rest).2)
  | ']' :: rest => some ([setClose], depth - 1, rest)
  | '&' :: '&' :: rest => some ([setOp .inter], depth, rest)
  | '-' :: '-' :: rest => some ([setOp .diff], depth, rest)
  | '~' :: '~' :: rest => some ([setOp .symmDiff], depth, rest)
  | _ => (readMember cs).map fun (s, rest) => ([setMember s], depth, rest)

/-! ## Outside brackets -/

/-- The expression an escape stands for. -/
def atomOfEscape : Escape → Regex
  | .char c => Regex.set (.single c)
  | .set s => Regex.set s
  | .assertion a => Regex.assert a

/-- The token at the front of a text outside brackets, with the depth behind
it. A group that begins with `?` must be one of the form `(?:…)`. -/
def readOutside (c : Char) (cs : List Char) : Option (List Token × Nat × List Char) :=
  match c with
  | '\\' => (readEscape cs).map fun (e, rest) => ([atom (atomOfEscape e)], 0, rest)
  | '[' => some ((readSetOpen cs).1, 1, (readSetOpen cs).2)
  | '(' =>
    match cs with
    | '?' :: ':' :: rest => some ([groupOpen], 0, rest)
    | '?' :: _ => none
    | _ => some ([groupOpen], 0, cs)
  | ')' => some ([groupClose], 0, cs)
  | '|' => some ([bar], 0, cs)
  | '*' => some ([quantifier .zeroOrMore], 0, cs)
  | '+' => some ([quantifier .oneOrMore], 0, cs)
  | '?' => some ([quantifier .zeroOrOne], 0, cs)
  | '\x7b' => none
  | '.' => some ([atom (Regex.set (.bracket true (.single '\n')))], 0, cs)
  | '^' => some ([atom (Regex.assert .textStart)], 0, cs)
  | '$' => some ([atom (Regex.assert .textEnd)], 0, cs)
  | c => some ([atom (Regex.set (.single c))], 0, cs)

/-! ## Every token uses up characters -/

theorem readHex_length {width : Nat} {cs rest : List Char} {c : Char}
    (h : readHex width cs = some (c, rest)) : rest.length ≤ cs.length := by
  unfold readHex at h
  split at h
  · rename_i cs
    split at h
    · simp at h
    · rename_i d tail hd
      split at h
      · simp at h
      · simp only [Option.map_eq_some_iff, Prod.mk.injEq] at h
        obtain ⟨_, _, _, rfl⟩ := h
        have := (List.dropWhile_sublist (l := cs) (· != '\x7d')).length_le
        simp [hd] at this ⊢
        omega
  · split at h
    · simp only [Option.map_eq_some_iff, Prod.mk.injEq] at h
      obtain ⟨_, _, _, rfl⟩ := h
      simp
    · simp at h

theorem readCategory_length {cs rest : List Char} {name : Category}
    (h : readCategory cs = some (name, rest)) : rest.length ≤ cs.length := by
  unfold readCategory at h
  split at h
  · simp at h
  · rename_i cs
    split at h
    · simp at h
    · rename_i d tail hd
      simp only [Option.map_eq_some_iff, Prod.mk.injEq] at h
      obtain ⟨_, _, _, rfl⟩ := h
      have := (List.dropWhile_sublist (l := cs) (· != '\x7d')).length_le
      simp [hd] at this ⊢
      omega
  · simp only [Option.map_eq_some_iff, Prod.mk.injEq] at h
    obtain ⟨_, _, _, rfl⟩ := h
    simp

theorem readEscape_length {cs rest : List Char} {e : Escape}
    (h : readEscape cs = some (e, rest)) : rest.length < cs.length := by
  unfold readEscape at h
  split at h
  · simp at h
  · rename_i c cs
    have hex : ∀ width, ∀ d, readHex width cs = some (d, rest) → rest.length < cs.length + 1 :=
      fun width d hd => Nat.lt_succ_of_le (readHex_length hd)
    have cat : ∀ name, readCategory cs = some (name, rest) → rest.length < cs.length + 1 :=
      fun name hn => Nat.lt_succ_of_le (readCategory_length hn)
    split at h <;>
      grind [Option.map_eq_some_iff]

theorem readEnd_length {cs rest : List Char} {e : Escape}
    (h : readEnd cs = some (e, rest)) : rest.length < cs.length := by
  unfold readEnd at h
  split at h
  · simp at h
  · have := readEscape_length h
    simp; omega
  · simp at h
    simp [← h.2]

theorem readMember_length {cs rest : List Char} {s : CharSet}
    (h : readMember cs = some (s, rest)) : rest.length < cs.length := by
  unfold readMember at h
  simp only [Option.bind_eq_bind, Option.bind_eq_some_iff, Prod.exists] at h
  obtain ⟨first, back, hfirst, h⟩ := h
  have hback := readEnd_length hfirst
  split at h
  · rename_i c more
    split at h
    · simp at h
      grind
    · simp only [Option.bind_eq_some_iff, Prod.exists, Option.map_eq_some_iff, Prod.mk.injEq] at h
      obtain ⟨last, tail, hlast, _, _, _, rfl⟩ := h
      have := readEnd_length hlast
      simp at hback this
      omega
  · simp at h
    grind

theorem readNamedSet_length {cs rest : List Char} {s : CharSet}
    (h : readNamedSet cs = some (s, rest)) : rest.length < cs.length := by
  unfold readNamedSet at h
  split at h
  · rename_i cs
    simp only at h
    generalize hbody : (if (cs.head? == some '^') = true then cs.drop 1 else cs) = body at h
    have hb : body.length ≤ cs.length := by
      subst hbody
      split <;> simp
    split at h
    · rename_i tail hd
      simp only [Option.map_eq_some_iff, Prod.mk.injEq] at h
      obtain ⟨_, _, _, rfl⟩ := h
      have := (List.dropWhile_sublist (l := body) (· != ':')).length_le
      simp [hd] at this ⊢
      omega
    · simp at h
  · simp at h

theorem readSetOpen_length (cs : List Char) : (readSetOpen cs).2.length ≤ cs.length := by
  unfold readSetOpen
  simp only
  generalize hbody : (if (cs.head? == some '^') = true then cs.drop 1 else cs) = body
  have hb : body.length ≤ cs.length := by
    subst hbody
    split <;> simp
  have hd := (List.dropWhile_sublist (l := body) (· == '-')).length_le
  split
  · rename_i rest _ hr
    simp [hr] at hd ⊢
    omega
  · simp
    omega

theorem readInSet_length {depth next : Nat} {cs rest : List Char} {ts : List Token}
    (h : readInSet depth cs = some (ts, next, rest)) : rest.length < cs.length := by
  unfold readInSet at h
  split at h
  · rename_i cs
    split at h
    · rename_i hn
      have := readNamedSet_length hn
      simp at h
      grind
    · have := readSetOpen_length cs
      simp at h
      grind
  · simp at h; grind
  · simp at h; grind
  · simp at h; grind
  · simp at h; grind
  · simp only [Option.map_eq_some_iff, Prod.mk.injEq, Prod.exists] at h
    obtain ⟨s, tail, hs, _, _, rfl⟩ := h
    exact readMember_length hs

theorem readOutside_length {next : Nat} {c : Char} {cs rest : List Char} {ts : List Token}
    (h : readOutside c cs = some (ts, next, rest)) : rest.length ≤ cs.length := by
  have hset := readSetOpen_length cs
  unfold readOutside at h
  split at h
  · simp only [Option.map_eq_some_iff, Prod.mk.injEq, Prod.exists] at h
    obtain ⟨_, _, he, _, _, rfl⟩ := h
    exact Nat.le_of_lt (readEscape_length he)
  case h_9 => simp at h
  case h_3 => split at h <;> simp at h <;> grind
  all_goals simp at h; grind

end Token

/-- The tokens of a text, where `depth` brackets are open before it. A text
that ends inside brackets has none. -/
def tokens? (depth : Nat) (cs : List Char) : Option (List Token) :=
  match cs with
  | [] => if depth = 0 then some [] else none
  | c :: cs =>
    match depth with
    | 0 =>
      match _h : Token.readOutside c cs with
      | none => none
      | some (ts, next, rest) => (tokens? next rest).map (ts ++ ·)
    | inside + 1 =>
      match _h : Token.readInSet (inside + 1) (c :: cs) with
      | none => none
      | some (ts, next, rest) => (tokens? next rest).map (ts ++ ·)
termination_by cs.length
decreasing_by
  · exact Nat.lt_succ_of_le (Token.readOutside_length _h)
  · exact Token.readInSet_length _h

end AccessPolicy.Regex
