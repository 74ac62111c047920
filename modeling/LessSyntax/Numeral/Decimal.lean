import LessSyntax.Unicode.Digit

/-!
# Decimal numbers

A decimal number is a sign, a natural number of units and the power of ten that a unit stands
for. `Decimal.ofChars?` reads one from its text: an optional sign, digits with an optional
point before, among or behind them, and an optional exponent. Any decimal digit of Unicode counts.
Text of another form is no decimal number.
-/

namespace LessSyntax

/-- The number `± units · 10 ^ exponent`. -/
structure Decimal where
  negative : Bool
  units : Nat
  exponent : Int
  deriving DecidableEq

/-- The positional value of a run of decimal digits. -/
def digitsValue (digits : List Char) : Nat :=
  digits.foldl (fun value c => 10 * value + Unicode.decimalValue c) 0

namespace Decimal

def isSign (c : Char) : Bool := c == '+' || c == '-'

/-- Drops one leading sign. -/
def unsigned : List Char → List Char
  | [] => []
  | c :: cs => if isSign c then cs else c :: cs

/-- Whether the text begins with a minus sign. -/
def isNegative (cs : List Char) : Bool := cs.head? == some '-'

/-- The value of the digits in a text, with the sign at its beginning. -/
def signed (cs digits : List Char) : Int :=
  let value : Int := digitsValue digits
  if isNegative cs then -value else value

/-- An integer: an optional sign, and digits. -/
def readInt? (cs : List Char) : Option Int :=
  let digits := unsigned cs
  if digits.isEmpty || !digits.all Unicode.isDecimal then none else some (signed cs digits)

def isExponentMark (c : Char) : Bool := c == 'e' || c == 'E'

/-- An exponent: a mark and an integer, or nothing, which is an exponent of zero. -/
def readExponent? : List Char → Option Int
  | [] => some 0
  | mark :: cs => if isExponentMark mark then readInt? cs else none

/-- The digits behind a point and what follows them; without a point there are none. -/
def splitPlaces : List Char → List Char × List Char
  | '.' :: cs => cs.span Unicode.isDecimal
  | cs => ([], cs)

def ofChars? (cs : List Char) : Option Decimal :=
  let (whole, behindWhole) := (unsigned cs).span Unicode.isDecimal
  let (places, behindPlaces) := splitPlaces behindWhole
  if whole.isEmpty && places.isEmpty then none
  else (readExponent? behindPlaces).map fun exponent =>
    ⟨isNegative cs, digitsValue (whole ++ places), exponent - places.length⟩

/-! ## Writing -/

/-- Drops the zeros at the end. -/
def trimZeros (digits : List Char) : List Char := (digits.reverse.dropWhile (· == '0')).reverse

/-- An exponent with its sign and two digits at least. -/
def exponentText (exponent : Int) : String :=
  let digits := toString exponent.natAbs
  (if exponent < 0 then "-" else "+") ++ (if digits.length < 2 then "0" ++ digits else digits)

/-- The number written out with a point, or with an exponent when the first digit stands
more than sixteen places before the point or more than four behind it. Zeros at the end of the
units are not written, except for one behind the point. -/
def toText (d : Decimal) : String :=
  let sign := if d.negative then "-" else ""
  if d.units == 0 then sign ++ "0.0"
  else
    let allDigits := (toString d.units).toList
    let point := allDigits.length + d.exponent
    let digits := trimZeros allDigits
    if point ≤ -4 || 16 < point then
      let places := digits.tail
      sign ++ String.ofList (digits.take 1)
        ++ (if places.isEmpty then "" else "." ++ String.ofList places)
        ++ "e" ++ exponentText (point - 1)
    else if point ≤ 0 then
      sign ++ "0." ++ String.ofList (List.replicate (-point).toNat '0' ++ digits)
    else
      let whole := digits.take point.toNat ++ List.replicate (point.toNat - digits.length) '0'
      let places := digits.drop point.toNat
      sign ++ String.ofList whole ++ "."
        ++ (if places.isEmpty then "0" else String.ofList places)

end Decimal

end LessSyntax
