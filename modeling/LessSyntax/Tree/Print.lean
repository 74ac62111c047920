import LessSyntax.Tree.Debug

/-!
# Writing values and selectors

Values, selectors and the references inside strings are written as they stand in a
stylesheet. Lists are written with one space at each joint, or with a comma and a space, or
with a slash; mixin paths with ` > `. Items have no written form: `Tree.toText` falls back on
the debugging form for them, and so does `Value.print` for a block that stands as a value.

To write a number is to ask whether its unit is empty, so that the unit must have a length.
`Tree.toText` refuses a tree where one has none; the others are all that a source can hold.
-/

namespace LessSyntax

namespace Interpolation

def print : Interpolation → List Char
  | .variable name => '@' :: '{' :: name.chars ++ ['}']
  | .property name => '$' :: '{' :: name.chars ++ ['}']

end Interpolation

/-- The segments of a string with every interpolation between them replaced. -/
def renderSegments (resolve : Interpolation → List Char) (first : Text)
    (parts : List (Interpolation × Text)) : List Char :=
  first.chars ++ parts.flatMap fun part => resolve part.1 ++ part.2.chars

/-- What stands between two elements of a list when it is written. -/
def Separator.print : Separator → List Char
  | .space => [' ']
  | .comma => [',', ' ']
  | .slash => ['/']

mutual

def Value.print : Value → List Char
  | .string text quote => quote.chars ++ text.chars ++ quote.chars
  | .interpolated first parts quote =>
    quote.chars ++ renderSegments Interpolation.print first parts ++ quote.chars
  | .number value unit => value.chars ++ (unit.map Text.chars).getD []
  | .color hex => '#' :: hex.chars
  | .identifier name => name.chars
  | .variable name => '@' :: name.chars
  | .property name => '$' :: name.chars
  | .call name arguments =>
    name.chars ++ '(' :: [',', ' '].intercalate (Value.printAll arguments) ++ [')']
  | .url address => 'u' :: 'r' :: 'l' :: '(' :: address.chars ++ [')']
  | .list values separator => separator.print.intercalate (Value.printAll values)
  | .ruleset block => (Debug.ruleset block.length).toList

def Value.printAll : List Value → List (List Char)
  | [] => []
  | v :: vs => Value.print v :: Value.printAll vs

end

namespace Selector

def print (s : Selector) : List Char :=
  match s.kind with
  | .byId => '#' :: s.name.chars
  | .byClass => '.' :: s.name.chars
  | .byType => s.name.chars
  | .universal => s.name.chars

end Selector

def MixinPath.print (path : MixinPath) : List Char :=
  [' ', '>', ' '].intercalate (path.toList.map Selector.print)

mutual

/-- Whether every unit that is written with the value has a length. -/
def Value.hasLengths : Value → Bool
  | .number _ unit => unit.all Text.hasLength
  | .call _ arguments => Value.allHaveLengths arguments
  | .list values _ => Value.allHaveLengths values
  | _ => true

def Value.allHaveLengths : List Value → Bool
  | [] => true
  | v :: vs => Value.hasLengths v && Value.allHaveLengths vs

end

/-- The written form where there is one, and the debugging form elsewhere. -/
def Tree.toText : Tree → Except LengthError String
  | .interpolation i => .ok (String.ofList i.print)
  | .value v => if v.hasLengths then .ok (String.ofList v.print) else .error .negative
  | .selector s => .ok (String.ofList s.print)
  | .mixinPath path => .ok (String.ofList (MixinPath.print path))
  | tree => .ok tree.debug

end LessSyntax
