import LessSyntax.Numeral.Shortest
import LessSyntax.Text.Quoted
import LessSyntax.Unicode.Space

/-!
# The value of a number

The text of a number with a point or an exponent stands for a double. Any other text of a
number stands for an integer, which is exact; one with more than `digitLimit` digits is
refused, leading zeros counted and the sign not. White space may stand around a number, and single
underscores between its digits. A text of another form is refused.

* `Numeral.ofChars`: reads a number; `Numeral.toText` writes it, a double with as few digits as
  read back to it.
* `Numeral.trimmed_eq_self`, `Numeral.ungrouped?_eq_some`: a text with neither white space nor
  underscores is read as it is.
-/

namespace LessSyntax

inductive Numeral where
  | integer (value : Int)
  /-- A double, given by its bits. -/
  | double (bits : Nat)
  deriving DecidableEq

inductive NumeralError where
  | tooManyDigits (count : Nat)
  | noInteger (text : List Char)
  | noDouble (text : List Char)
  deriving DecidableEq

namespace Numeral

def digitLimit : Nat := 4300

/-! ## What may stand in the text of a number besides it -/

/-- White space that may stand around a number. The separators among the control characters do
not count. -/
def isPadding (c : Char) : Bool := Unicode.isSpace c && !('\x1c' ≤ c && c ≤ '\x1f')

def trimmed (cs : List Char) : List Char :=
  ((cs.dropWhile isPadding).reverse.dropWhile isPadding).reverse

/-- The text without its underscores, each of which has to stand between two digits. Whether a
digit stands before the text is given. -/
def ungroupedBehind? (behindDigit : Bool) : List Char → Option (List Char)
  | [] => some []
  | c :: cs =>
    if c == '_' then
      if behindDigit && cs.head?.any Unicode.isDecimal then ungroupedBehind? false cs else none
    else (ungroupedBehind? (Unicode.isDecimal c) cs).map (c :: ·)

def ungrouped? (cs : List Char) : Option (List Char) := ungroupedBehind? false cs

/-! ## Reading -/

def isFractional (cs : List Char) : Bool :=
  cs.any fun c => c == '.' || Decimal.isExponentMark c

/-- The bits of a double. -/
def readDouble (cs : List Char) : Except NumeralError Nat :=
  match (ungrouped? (trimmed cs)).bind Decimal.ofChars? with
  | some d => .ok (Binary64.ofDecimal d)
  | none => .error (.noDouble cs)

/-- The digits are counted before what follows them is looked at. -/
def readInteger (cs : List Char) : Except NumeralError Int :=
  let literal := trimmed cs
  let (run, rest) := (Decimal.unsigned literal).span fun c => Unicode.isDecimal c || c == '_'
  match ungrouped? run with
  | none => .error (.noInteger cs)
  | some digits =>
    if digitLimit < digits.length then .error (.tooManyDigits digits.length)
    else if digits.isEmpty || !rest.isEmpty then .error (.noInteger cs)
    else .ok (Decimal.signed literal digits)

def ofChars (cs : List Char) : Except NumeralError Numeral :=
  if isFractional cs then (readDouble cs).map .double else (readInteger cs).map .integer

/-! ## Writing -/

def toText : Numeral → String
  | .integer value => toString value
  | .double bits => Binary64.toText bits

/-! ## Laws -/

theorem trimmed_eq_self {cs : List Char} (h : ∀ c ∈ cs, isPadding c = false) :
    trimmed cs = cs := by
  have hdrop : ∀ l : List Char, (∀ c ∈ l, isPadding c = false) → l.dropWhile isPadding = l := by
    intro l hl
    cases l with
    | nil => rfl
    | cons c l => exact List.dropWhile_cons_of_neg (by simp [hl c])
  rw [trimmed, hdrop cs h, hdrop _ (by simpa using h), List.reverse_reverse]

theorem ungroupedBehind?_eq_some {cs : List Char} (h : '_' ∉ cs) (behindDigit : Bool) :
    ungroupedBehind? behindDigit cs = some cs := by
  induction cs generalizing behindDigit with
  | nil => rfl
  | cons c cs ih =>
    rw [List.mem_cons, not_or] at h
    have hc : (c == '_') = false := by simpa using Ne.symm h.1
    rw [ungroupedBehind?, hc, if_neg Bool.false_ne_true, ih h.2, Option.map_some]

theorem ungrouped?_eq_some {cs : List Char} (h : '_' ∉ cs) : ungrouped? cs = some cs :=
  ungroupedBehind?_eq_some h false

end Numeral

/-- The most characters of a text that is no integer which are shown. -/
def NumeralError.shownLimit : Nat := 200

def NumeralError.message : NumeralError → String
  | .tooManyDigits count =>
    "Exceeds the limit (" ++ toString Numeral.digitLimit
      ++ " digits) for integer string conversion: value has " ++ toString count
      ++ " digits; use sys.set_int_max_str_digits() to increase the limit"
  | .noInteger text =>
    "invalid literal for int() with base 10: "
      ++ String.ofList ((quoted text).toList.take NumeralError.shownLimit)
  | .noDouble text => "could not convert string to float: " ++ quoted text

end LessSyntax
