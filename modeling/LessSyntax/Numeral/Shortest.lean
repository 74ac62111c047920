import LessSyntax.Numeral.Binary64

/-!
# The shortest text of a double

A finite double is written with as few digits as read back to the same double. For every power
of ten, from the greatest on, the two multiples of it next to the double are tried; the first
power with a hit wins. Of two hits the nearer one is taken, and the even one of two that are
equally near.

* `closest?_reads`: a decimal number that is found reads back to the double.
-/

namespace LessSyntax.Binary64

/-- The bits of a double that is no number. -/
def nan : Nat := infinity + Nat.pow 2 51

/-- The bits without the sign. -/
def magnitude (bits : Nat) : Nat := bits % signBit

/-- The significand and the scale of a positive finite double. -/
def unpack (bits : Nat) : Nat × Nat :=
  match bits / Nat.pow 2 52 with
  | 0 => (bits, 0)
  | scale + 1 => (Nat.pow 2 52 + bits % Nat.pow 2 52, scale)

/-- How often a power of ten goes into a positive finite double, as a fraction. -/
def quotient (bits : Nat) (exponent : Int) : Nat × Nat :=
  let parts := unpack bits
  (parts.1 * Nat.pow 2 parts.2 * Nat.pow 10 (-exponent).toNat,
    Nat.pow 2 1074 * Nat.pow 10 exponent.toNat)

/-- The natural numbers next to a fraction, the nearer one first. -/
def neighbours (num den : Nat) : List Nat :=
  let near := divideToEven num den
  [near, if near = num / den then near + 1 else near - 1]

/-- The decimal number with the given exponent that reads back to a positive finite double. -/
def closest? (bits : Nat) (exponent : Int) : Option Decimal :=
  let fraction := quotient bits exponent
  ((neighbours fraction.1 fraction.2).map fun units => ⟨false, units, exponent⟩).find?
    fun d => ofDecimal d == bits

/-- The greatest exponent of a decimal number that reads back to a finite double. -/
def greatestExponent : Int := 308

/-- The number of exponents that are tried. Below them a double has more digits than tell it
from all others. -/
def exponentCount : Nat := 660

/-- The decimal number with the fewest digits that reads back to a positive finite double. -/
def shortest (bits : Nat) : Decimal :=
  ((List.range exponentCount).findSome? fun (step : Nat) =>
    closest? bits (greatestExponent - step)).getD ⟨false, 0, 0⟩

def toText (bits : Nat) : String :=
  let size := magnitude bits
  if infinity < size then "nan"
  else
    let sign := if signBit ≤ bits then "-" else ""
    sign ++ (if size = infinity then "inf" else (shortest size).toText)

theorem closest?_reads {bits : Nat} {exponent : Int} {d : Decimal}
    (h : closest? bits exponent = some d) : ofDecimal d = bits ∧ d.exponent = exponent := by
  have hmem := List.mem_of_find?_eq_some h
  obtain ⟨units, _, rfl⟩ := List.mem_map.mp hmem
  exact ⟨by simpa using List.find?_some h, rfl⟩

end LessSyntax.Binary64
