import AccessPolicy.Text.Blank

/-!
# Tokens of a glob

A glob is cut into tokens from left to right. Braces carry their offset in
bytes, because a brace without a partner is reported with it. A bracketed set
is one token: its brackets nest, a backslash hides the character behind it, and
a closing bracket at the very front is a member. A set that does not close
takes everything up to the end of the glob.
-/

namespace AccessPolicy.Glob

open AccessPolicy.Text

/-- A token of a glob. -/
inductive Token where
  | char (c : Char)
  | escape (c : Char)
  | verbatim (text : List Char)
  | set (text : List Char)
  | single
  | star
  | globstar
  | braceOpen (offset : Nat)
  | braceClose (offset : Nat)
  | parenOpen
  | parenClose
  | comma
  | bar
deriving DecidableEq, Repr

/-- A set being read: how many brackets are open, and the characters taken so
far, the latest first. -/
structure OpenBracket where
  depth : Nat
  taken : List Char
deriving DecidableEq, Repr

/-- The tokens of a glob from an offset on, outside a set or inside one. -/
def scan : Option OpenBracket → Nat → List Char → List Token
  | none, _, [] => []
  | some b, _, [] => [.verbatim b.taken.reverse]
  | some b, offset, '\\' :: c :: cs =>
    scan (some ⟨b.depth, c :: '\\' :: b.taken⟩) (offset + 1 + c.utf8Size) cs
  | some b, offset, '[' :: cs => scan (some ⟨b.depth + 1, '[' :: b.taken⟩) (offset + 1) cs
  | some b, offset, ']' :: cs =>
    if b.depth = 0 then .set (']' :: b.taken).reverse :: scan none (offset + 1) cs
    else scan (some ⟨b.depth - 1, ']' :: b.taken⟩) (offset + 1) cs
  | some b, offset, c :: cs => scan (some ⟨b.depth, c :: b.taken⟩) (offset + c.utf8Size) cs
  | none, offset, '[' :: '^' :: ']' :: cs => scan (some ⟨0, [']', '^', '[']⟩) (offset + 3) cs
  | none, offset, '[' :: '^' :: cs => scan (some ⟨0, ['^', '[']⟩) (offset + 2) cs
  | none, offset, '[' :: ']' :: cs => scan (some ⟨0, [']', '[']⟩) (offset + 2) cs
  | none, offset, '[' :: cs => scan (some ⟨0, ['[']⟩) (offset + 1) cs
  | none, offset, '\\' :: c :: cs => .escape c :: scan none (offset + 1 + c.utf8Size) cs
  | none, offset, '\\' :: [] => .verbatim ['\\'] :: scan none (offset + 1) []
  | none, offset, '*' :: '*' :: cs => .globstar :: scan none (offset + 2) cs
  | none, offset, '*' :: cs => .star :: scan none (offset + 1) cs
  | none, offset, '?' :: cs => .single :: scan none (offset + 1) cs
  | none, offset, '\x7b' :: cs => .braceOpen offset :: scan none (offset + 1) cs
  | none, offset, '\x7d' :: cs => .braceClose offset :: scan none (offset + 1) cs
  | none, offset, '(' :: cs => .parenOpen :: scan none (offset + 1) cs
  | none, offset, ')' :: cs => .parenClose :: scan none (offset + 1) cs
  | none, offset, ',' :: cs => .comma :: scan none (offset + 1) cs
  | none, offset, '|' :: cs => .bar :: scan none (offset + 1) cs
  | none, offset, c :: cs => .char c :: scan none (offset + c.utf8Size) cs

end AccessPolicy.Glob
