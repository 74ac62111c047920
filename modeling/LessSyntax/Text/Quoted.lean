import LessSyntax.Unicode.Printable

/-!
# Quoted text

How a text is shown inside a message: between quotation marks, on one line, in printable
characters only. Single marks are used unless the text holds a single mark and no double one.
The mark in use and the backslash are escaped by a backslash; newline, carriage return and
tab have their letters; any other unprintable character is written by its code point in two,
four or eight hexadecimal digits.
-/

namespace LessSyntax

/-- The lowest `width` hexadecimal digits of a number, in lower case. -/
def hexDigits : Nat → Nat → List Char
  | 0, _ => []
  | width + 1, n => hexDigits width (n / 16) ++ [Nat.digitChar (n % 16)]

namespace Quoted

def mark (cs : List Char) : Char :=
  if cs.contains '\'' && !cs.contains '"' then '"' else '\''

def escapeCode (code : Nat) : List Char :=
  if code < 0x100 then '\\' :: 'x' :: hexDigits 2 code
  else if code < 0x10000 then '\\' :: 'u' :: hexDigits 4 code
  else '\\' :: 'U' :: hexDigits 8 code

def escape (mark c : Char) : List Char :=
  if c == mark || c == '\\' then ['\\', c]
  else if c == '\n' then ['\\', 'n']
  else if c == '\r' then ['\\', 'r']
  else if c == '\t' then ['\\', 't']
  else if Unicode.isPrintable c then [c]
  else escapeCode c.toNat

def encode (cs : List Char) : List Char :=
  mark cs :: cs.flatMap (escape (mark cs)) ++ [mark cs]

end Quoted

/-- The text as it is shown in messages. -/
def quoted (cs : List Char) : String := String.ofList (Quoted.encode cs)

end LessSyntax
