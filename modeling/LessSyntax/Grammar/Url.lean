import LessSyntax.Grammar.CharClass
import LessSyntax.Rule.Basic
import LessSyntax.Tree.Basic

/-!
# Addresses

An address without quotation marks stands in `url(...)`, where the name is written in either
case. Blanks around it do not belong to it. A quotation mark at its start makes the whole an
ordinary call instead. Behind the start the address is committed: a newline, a quotation mark,
an opening parenthesis or the end of the text is a failure.

* `url`: an address.
* `addressChars_append`, `isAddressChar_of_mem`, `isAddressChar_head?_drop`: the address is the
  longest beginning that holds nothing an address cannot hold.
-/

namespace LessSyntax.Grammar

def isQuotationMark (c : Char) : Bool := c == '"' || c == '\''

/-- What an address may hold. -/
def isAddressChar (c : Char) : Bool :=
  !(c == '\n' || isQuotationMark c || c == '(' || c == ')')

/-- The address that a text begins with, with the blanks at its end. -/
def addressChars (cs : List Char) : List Char := cs.takeWhile isAddressChar

/-- A text without the blanks at its end. -/
def trimBlanks (cs : List Char) : List Char := (cs.reverse.dropWhile isBlank).reverse

/-- Whether a text begins with a quotation mark. -/
def opensQuoted : List Char → Bool
  | [] => false
  | c :: _ => isQuotationMark c

theorem addressChars_append (cs : List Char) :
    addressChars cs ++ cs.drop (addressChars cs).length = cs := by
  rw [addressChars, drop_takeWhile_length, List.takeWhile_append_dropWhile]

theorem isAddressChar_of_mem {cs : List Char} {c : Char} (h : c ∈ addressChars cs) :
    isAddressChar c = true :=
  List.all_eq_true.mp List.all_takeWhile c h

/-- Behind an address stands nothing that an address may hold. -/
theorem isAddressChar_head?_drop (cs : List Char) :
    ∀ c ∈ (cs.drop (addressChars cs).length).head?, isAddressChar c = false := by
  intro c hc
  rw [addressChars, drop_takeWhile_length] at hc
  have hstop := List.head?_dropWhile_not isAddressChar cs
  rw [Option.mem_def.mp hc] at hstop
  exact hstop

def url : Rule Value := fun c =>
  if isLowered ['u', 'r', 'l', '('] (c.peek 4) then
    let opened := c.advance 4
    let start := opened.advance (opened.onward.takeWhile isBlank).length
    if opensQuoted (start.peek 1) then .missed c "url"
    else
      let found := addressChars start.onward
      let stop := start.advance found.length
      if stop.startsWith [')'] then
        .matched (.url (start.next (trimBlanks found).length)) (stop.advance 1)
      else .failed stop (quoted [')']) "url"
  else .missed c "url"

end LessSyntax.Grammar
