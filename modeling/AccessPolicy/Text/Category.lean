import AccessPolicy.Text.Category.Table

/-!
# Character categories

The seven one-letter categories of characters, decimal digits, and the
characters of which words are made. Characters below 128 are decided without a
table, and in the same way as the tables decide them.
-/

namespace AccessPolicy.Text

/-- The general category of a character, as far as its first letter tells. -/
inductive Category where
  | letter
  | mark
  | number
  | punctuation
  | symbol
  | separator
  | other
deriving DecidableEq, Repr

namespace Category

/-- Whether a character lies in one of the ranges. -/
def inRanges (ranges : Array (Nat × Nat)) (c : Char) : Bool :=
  ranges.any fun range => range.1 ≤ c.toNat && c.toNat ≤ range.2

/-- The form in which names of categories are compared: lower case, without
blanks, hyphens and underscores, and without a leading `is`. The name `isc` is
another property's and keeps it. -/
def normalName (name : List Char) : List Char :=
  let plain := (name.filter fun c => c.toNat < 128 && !(c == ' ' || c == '_' || c == '-')).map
    Char.toLower
  match plain with
  | ['i', 's', 'c'] => plain
  | 'i' :: 's' :: rest => rest
  | _ => plain

/-- The category of a name, short or long. -/
def ofName? (name : List Char) : Option Category :=
  match String.ofList (normalName name) with
  | "l" | "letter" => some letter
  | "m" | "mark" | "combiningmark" => some mark
  | "n" | "number" => some number
  | "p" | "punct" | "punctuation" => some punctuation
  | "s" | "symbol" => some symbol
  | "z" | "separator" => some separator
  | "c" | "other" => some other
  | _ => none

end Category

open Category in
/-- Digits of a positional decimal system, in any script. -/
def isDecimalDigit (c : Char) : Bool :=
  if c.toNat < 128 then c.isDigit else inRanges decimalDigitRanges c

namespace Category

/-- Numbers of any sort. -/
def isNumber (c : Char) : Bool :=
  isDecimalDigit c || inRanges letterNumberRanges c || inRanges otherNumberRanges c

/-- Punctuation, connectors among it. -/
def isPunctuation (c : Char) : Bool :=
  inRanges connectorRanges c || inRanges otherPunctuationRanges c

/-- Whether a character has the category. -/
def contains : Category → Char → Bool
  | letter, c => inRanges letterRanges c
  | mark, c => inRanges markRanges c
  | number, c => isNumber c
  | punctuation, c => isPunctuation c
  | symbol, c => inRanges symbolRanges c
  | separator, c => inRanges separatorRanges c
  | other, c =>
    !(inRanges letterRanges c || inRanges markRanges c || isNumber c || isPunctuation c ||
      inRanges symbolRanges c || inRanges separatorRanges c)

/-- Circled and squared letters, which are symbols but spell words, and the
two characters that join the letters beside them. -/
def wordSymbolRanges : Array (Nat × Nat) :=
  #[(0x200C, 0x200D), (0x24B6, 0x24E9), (0x1F130, 0x1F149), (0x1F150, 0x1F169),
    (0x1F170, 0x1F189)]

end Category

open Category in
/-- The characters of which words are made: letters, marks, decimal digits,
numbers written with letters, and connectors. -/
def isWordChar (c : Char) : Bool :=
  if c.toNat < 128 then c.isAlphanum || c == '_'
  else
    inRanges letterRanges c || inRanges markRanges c || inRanges decimalDigitRanges c ||
      inRanges letterNumberRanges c || inRanges connectorRanges c || inRanges wordSymbolRanges c

end AccessPolicy.Text
