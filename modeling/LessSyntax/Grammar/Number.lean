import LessSyntax.Numeral.Decimal
import LessSyntax.Rule.Basic
import LessSyntax.Tree.Basic
import LessSyntax.Unicode.Letter

/-!
# Numbers

A number is an optional sign, digits with an optional fraction, and an optional exponent; the
digits before a fraction may be missing. A percent sign or a run of letters behind it is its
unit. A mark of an exponent without digits behind it belongs to the unit. At a place that counts
from the end, the number at the start of the text is read.

* `number`: a number with its unit.
* `numberLength?_bounds`, `unitLength_le`: a number has one character at least, a unit may have
  none, and both lie in the text.
* `number_eq`: at a place that counts from the start, a number is what is measured and a unit.
-/

namespace LessSyntax.Grammar

open Rule

/-! ## Lengths of the parts

Each is the length of the part of its kind that a text begins with, and zero where there is
none. -/

def signLength : List Char → Nat
  | [] => 0
  | c :: _ => if Decimal.isSign c then 1 else 0

def digitsLength (cs : List Char) : Nat := (cs.takeWhile Unicode.isDecimal).length

/-- A point, and digits behind it. -/
def fractionLength : List Char → Nat
  | [] => 0
  | c :: cs => if c == '.' && 0 < digitsLength cs then 1 + digitsLength cs else 0

/-- Digits with or without a fraction. -/
def mantissaLength (cs : List Char) : Nat :=
  digitsLength cs + fractionLength (cs.drop (digitsLength cs))

/-- A mark, and digits with or without a sign behind it. -/
def exponentLength : List Char → Nat
  | [] => 0
  | c :: cs =>
    let digits := digitsLength (cs.drop (signLength cs))
    if Decimal.isExponentMark c && 0 < digits then 1 + (signLength cs + digits) else 0

def unitLength : List Char → Nat
  | [] => 0
  | c :: cs => if c == '%' then 1 else ((c :: cs).takeWhile Unicode.isLetter).length

def numberLength? (cs : List Char) : Option Nat :=
  let signed := cs.drop (signLength cs)
  let mantissa := mantissaLength signed
  if mantissa = 0 then none
  else some (signLength cs + (mantissa + exponentLength (signed.drop mantissa)))

/-! ## Bounds -/

theorem signLength_le (cs : List Char) : signLength cs ≤ cs.length := by
  cases cs with
  | nil => exact Nat.le_refl _
  | cons c cs =>
    rw [signLength]
    split <;> simp

theorem digitsLength_le (cs : List Char) : digitsLength cs ≤ cs.length :=
  (List.takeWhile_sublist _).length_le

theorem fractionLength_le (cs : List Char) : fractionLength cs ≤ cs.length := by
  cases cs with
  | nil => exact Nat.le_refl _
  | cons c cs =>
    have := digitsLength_le cs
    rw [fractionLength, List.length_cons]
    split <;> omega

theorem mantissaLength_le (cs : List Char) : mantissaLength cs ≤ cs.length := by
  have := digitsLength_le cs
  have := fractionLength_le (cs.drop (digitsLength cs))
  rw [List.length_drop] at this
  rw [mantissaLength]
  omega

theorem exponentLength_le (cs : List Char) : exponentLength cs ≤ cs.length := by
  cases cs with
  | nil => exact Nat.le_refl _
  | cons c cs =>
    have := signLength_le cs
    have := digitsLength_le (cs.drop (signLength cs))
    rw [List.length_drop] at this
    dsimp only [exponentLength]
    rw [List.length_cons]
    split <;> omega

theorem unitLength_le (cs : List Char) : unitLength cs ≤ cs.length := by
  cases cs with
  | nil => exact Nat.le_refl _
  | cons c cs =>
    rw [unitLength]
    split
    · simp
    · exact (List.takeWhile_sublist _).length_le

theorem numberLength?_bounds {cs : List Char} {count : Nat} (h : numberLength? cs = some count) :
    0 < count ∧ count ≤ cs.length := by
  dsimp only [numberLength?] at h
  split at h
  · cases h
  · cases h
    have := signLength_le cs
    have := mantissaLength_le (cs.drop (signLength cs))
    have := exponentLength_le
      ((cs.drop (signLength cs)).drop (mantissaLength (cs.drop (signLength cs))))
    simp only [List.length_drop] at *
    omega

/-! ## Rules -/

/-- A unit, if there is one here. -/
def unit : Rule (Option Text) := fun c =>
  match unitLength c.ahead with
  | 0 => .matched none c
  | count => .matched (some (c.next count)) (c.advance count)

def number : Rule Value := fun c =>
  let start := c.notBeforeStart
  match numberLength? start.ahead with
  | none => .missed c "number"
  | some count =>
    let stop := start.advance count
    (unit stop).map (.number (c.slice stop.pos))

theorem number_eq {c : Cursor} (h : 0 ≤ c.pos) :
    number c = map (fun found => .number found.1 found.2)
      (both (scan numberLength? "number") unit) c := by
  unfold number scan map both
  dsimp only
  rw [Cursor.notBeforeStart_eq h, Cursor.onward_eq h]
  cases numberLength? c.ahead with
  | none => rfl
  | some count =>
    simp only [Cursor.pos_advance, Outcome.bind, Cursor.next]
    cases unit (c.advance count) <;> rfl

end LessSyntax.Grammar
