import LessSyntax.Grammar.CharClass
import LessSyntax.Rule.Basic
import LessSyntax.Tree.Basic

/-!
# Colours

A `#` and three, four, six or eight digits, behind which no name goes on.

* `color`: a colour.
-/

namespace LessSyntax.Grammar

/-- The numbers of digits that a colour may have. -/
def colorLengths : List Nat := [3, 4, 6, 8]

/-- Whether a name goes on with the first character of a text. -/
def nameGoesOn : List Char → Bool
  | [] => false
  | c :: _ => isNameChar c

def color : Rule Value := fun c =>
  if c.startsWith ['#'] then
    let start := c.advance 1
    let count := (start.onward.takeWhile isHexDigit).length
    let stop := start.advance count
    if colorLengths.contains count && !nameGoesOn (stop.peek 1) then
      .matched (.color (start.next count)) stop
    else .missed c "color"
  else .missed c "color"

end LessSyntax.Grammar
