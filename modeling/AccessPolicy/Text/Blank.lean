/-!
# Blank characters and trimming

A blank is a character with the `White_Space` property. Names, patterns and
paths are read after blanks are dropped from both ends; positions inside a
text are counted in the bytes of its UTF-8 form.
-/

namespace AccessPolicy.Text

/-- The characters with the `White_Space` property. -/
def isBlank (c : Char) : Bool :=
  let n := c.toNat
  (9 ≤ n && n ≤ 13) || n == 0x20 || n == 0x85 || n == 0xA0 || n == 0x1680 ||
    (0x2000 ≤ n && n ≤ 0x200A) || n == 0x2028 || n == 0x2029 || n == 0x202F ||
    n == 0x205F || n == 0x3000

/-- The characters left when leading blanks are dropped. -/
def dropLeadingBlanks (cs : List Char) : List Char :=
  cs.dropWhile isBlank

/-- The characters left when trailing blanks are dropped. -/
def dropTrailingBlanks (cs : List Char) : List Char :=
  (cs.reverse.dropWhile isBlank).reverse

/-- The characters left when blanks are dropped from both ends. -/
def trimChars (cs : List Char) : List Char :=
  dropTrailingBlanks (dropLeadingBlanks cs)

/-- The text without the blanks at its ends. -/
def trim (s : String) : String :=
  String.ofList (trimChars s.toList)

/-- Length in bytes of UTF-8. -/
def byteLength : List Char → Nat
  | [] => 0
  | c :: cs => c.utf8Size + byteLength cs

@[simp] theorem byteLength_nil : byteLength [] = 0 := rfl

@[simp] theorem byteLength_cons (c : Char) (cs : List Char) :
    byteLength (c :: cs) = c.utf8Size + byteLength cs := rfl

@[simp] theorem byteLength_append (cs ds : List Char) :
    byteLength (cs ++ ds) = byteLength cs + byteLength ds := by
  induction cs with
  | nil => simp
  | cons c cs ih => simp [ih, Nat.add_assoc]

/-- Splits a text after its first `n` bytes. There is no such split when the
text is shorter or byte `n` lies inside a character. -/
def splitAtByte? : Nat → List Char → Option (List Char × List Char)
  | 0, cs => some ([], cs)
  | _ + 1, [] => none
  | n + 1, c :: cs =>
    if c.utf8Size ≤ n + 1 then
      (splitAtByte? (n + 1 - c.utf8Size) cs).map fun (front, back) => (c :: front, back)
    else none

/-- The two parts of a split make up the text, and the first has the asked
number of bytes. -/
theorem splitAtByte?_eq_some_iff {n : Nat} {cs front back : List Char} :
    splitAtByte? n cs = some (front, back) ↔ cs = front ++ back ∧ byteLength front = n := by
  induction cs generalizing n front back with
  | nil =>
    cases n <;> simp [splitAtByte?] <;> grind [byteLength_nil]
  | cons c cs ih =>
    have hc := c.utf8Size_pos
    cases n with
    | zero =>
      cases front with
      | nil => simp [splitAtByte?, eq_comm]
      | cons d ds =>
        have hd := d.utf8Size_pos
        simp [splitAtByte?]
        omega
    | succ n =>
      simp only [splitAtByte?]
      split
      · rename_i h
        cases front with
        | nil => simp
        | cons d ds =>
          simp only [Option.map_eq_some_iff, Prod.mk.injEq, Prod.exists, ih, List.cons.injEq,
            List.cons_append, byteLength_cons]
          constructor
          · rintro ⟨a, b, ⟨rfl, hl⟩, ⟨rfl, rfl⟩, rfl⟩
            exact ⟨⟨rfl, rfl⟩, by omega⟩
          · rintro ⟨⟨rfl, rfl⟩, hl⟩
            exact ⟨ds, back, ⟨rfl, by omega⟩, ⟨rfl, rfl⟩, rfl⟩
      · rename_i h
        cases front with
        | nil => simp
        | cons d ds =>
          simp only [reduceCtorEq, List.cons_append, List.cons.injEq, byteLength_cons, false_iff,
            not_and, and_imp]
          rintro rfl _
          omega

end AccessPolicy.Text
