/-!
# Ratios with a fixed number of decimal places

A ratio is first taken as a double-precision number, the nearest with 53
significant bits, and that number is written with six places. Both roundings go
to the nearest value, and to the even one when two are equally near.
-/

namespace AccessPolicy.Decimal

/-- The integer nearest to `num / den`; of two, the even one. -/
def roundHalfEven (num den : Nat) : Nat :=
  let quotient := num / den
  let twice := 2 * (num % den)
  if twice < den then quotient
  else if den < twice then quotient + 1
  else quotient + quotient % 2

/-- A ratio of at most one as a double-precision number: `(m, e)` stands for
`m / 2 ^ e`. -/
def doubleRatio (num den : Nat) : Nat × Nat :=
  let guess := 52 + (den.log2 - num.log2)
  let exponent := if num <<< guess < den <<< 52 then guess + 1 else guess
  (roundHalfEven (num <<< exponent) den, exponent)

/-- `m / 10 ^ 6` with all six places. -/
def sixPlaces (millionths : Nat) : String :=
  let fraction := toString (millionths % 1000000)
  toString (millionths / 1000000) ++ "." ++
    String.ofList (List.replicate (6 - fraction.length) '0') ++ fraction

/-- A ratio of at most one, with six places; zero when there is nothing to
divide by. -/
def ratioText (num den : Nat) : String :=
  if num = 0 || den = 0 then sixPlaces 0
  else
    let (mantissa, exponent) := doubleRatio num den
    sixPlaces (roundHalfEven (mantissa * 1000000) (1 <<< exponent))

end AccessPolicy.Decimal
