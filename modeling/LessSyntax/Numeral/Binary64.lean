import LessSyntax.Numeral.Decimal

/-!
# Binary64 numbers

The double that lies nearest to a decimal number, as the natural number that its 64 bits
stand for. Of two nearest doubles the one with an even significand is taken. What is too large
becomes infinity and what is too small becomes zero. All arithmetic is on natural numbers.

A positive finite double is `significand · 2 ^ (scale - 1074)`, where `scale` is a natural
number and the significand lies below `2 ^ 53`; it is at least `2 ^ 52` unless `scale` is zero.
Its bits are `scale · 2 ^ 52 + significand`, since the leading bit of a full significand
counts the exponent field up by one. For the same reason a significand that is rounded up to
`2 ^ 53` carries into the exponent, and the largest finite double is followed by infinity.
-/

namespace LessSyntax.Binary64

/-- The bits of infinity. -/
def infinity : Nat := 0x7FF * Nat.pow 2 52

/-- The bit of the sign. -/
def signBit : Nat := Nat.pow 2 63

/-- The quotient, rounded to the nearest natural number; a tie goes to the even one. -/
def divideToEven (num den : Nat) : Nat :=
  let quotient := num / den
  let twice := 2 * (num % den)
  if twice < den then quotient
  else if den < twice then quotient + 1
  else quotient + quotient % 2

/-- The bits of the double nearest to a positive fraction. -/
def ofFraction (num den : Nat) : Nat :=
  -- The fraction lies between `2 ^ (place - 1074 + 52)` and four times as much.
  let place := num.log2 + 1074 - (den.log2 + 53)
  let scaled (scale : Nat) : Nat × Nat := (num * Nat.pow 2 1074, den * Nat.pow 2 scale)
  let full := (scaled place).1 / (scaled place).2 < Nat.pow 2 53
  let scale := if full then place else place + 1
  min infinity (scale * Nat.pow 2 52 + divideToEven (scaled scale).1 (scaled scale).2)

/-- The bits of the double nearest to a decimal number. Numbers whose first digit stands more
than four hundred places from the point are out of range on either side. -/
def ofDecimal (d : Decimal) : Nat :=
  let digits : Int := (toString d.units).length
  let magnitude :=
    if d.units == 0 then 0
    else if 400 < digits + d.exponent then infinity
    else if digits + d.exponent < -400 then 0
    else ofFraction (d.units * Nat.pow 10 d.exponent.toNat) (Nat.pow 10 (-d.exponent).toNat)
  if d.negative then signBit + magnitude else magnitude

end LessSyntax.Binary64
