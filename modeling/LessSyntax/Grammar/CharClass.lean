import LessSyntax.Unicode.Letter
import LessSyntax.Unicode.Digit

/-!
# Classes of characters

The classes that the grammar distinguishes. Letters and digits are those of Unicode; blanks
are five characters only.
-/

namespace LessSyntax.Grammar

/-- White space between the parts of a stylesheet: tab, newline, carriage return, form feed
and space. -/
def isBlank (c : Char) : Bool :=
  c == '\t' || c == '\n' || c == '\r' || c == '\x0c' || c == ' '

def isNonAscii (c : Char) : Bool := 0x80 ≤ c.toNat

/-- What a name may begin with, hyphens apart. -/
def isNameStart (c : Char) : Bool := Unicode.isLetter c || isNonAscii c || c == '_'

/-- What a name may go on with. -/
def isNameChar (c : Char) : Bool := isNameStart c || Unicode.isDigit c || c == '-'

/-- What may stand in a colour: any digit, and the letters from `a` to `f` in either case. -/
def isHexDigit (c : Char) : Bool := Unicode.isDigit c || "abcdefABCDEF".toList.contains c

/-- Whether a text is the given one, once its capitals are lowered. -/
def isLowered (chars : List Char) (cs : List Char) : Bool := cs.map Char.toLower == chars

/-- Behind the characters of a class stands what is left when they are dropped. -/
theorem drop_takeWhile_length (isIn : Char → Bool) (cs : List Char) :
    cs.drop (cs.takeWhile isIn).length = cs.dropWhile isIn := by
  induction cs with
  | nil => rfl
  | cons c cs ih =>
    rw [List.takeWhile_cons, List.dropWhile_cons]
    split
    · simpa using ih
    · rfl

theorem isNameChar_of_isNameStart {c : Char} (h : isNameStart c = true) :
    isNameChar c = true := by
  simp [isNameChar, h]

end LessSyntax.Grammar
