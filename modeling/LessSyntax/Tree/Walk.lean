import LessSyntax.Tree.Basic

/-!
# Walking through a tree

Two enumerations, both in the order of the source and every node before what it contains.

* `Item.walk`: the items, including those in the blocks of rules, mixins and variables. A
  block is searched where it belongs to a rule or a mixin, or is the whole value of a
  variable.
* `Tree.values`: the values, wherever they stand, including those in calls, lists and blocks.
-/

namespace LessSyntax

mutual

/-- The items in a value that is a block. -/
def Value.walk : Value → List Item
  | .ruleset block => Item.walkAll block
  | _ => []

/-- The item itself and all items inside it. -/
def Item.walk : Item → List Item
  | .declaration name value important => [.declaration name value important]
  | .rule selectors block => .rule selectors block :: Item.walkAll block
  | .mixin path block => .mixin path block :: Item.walkAll block
  | .mixinCall path => [.mixinCall path]
  | .variable name value => .variable name value :: Value.walk value
  | .variableCall name => [.variableCall name]

def Item.walkAll : List Item → List Item
  | [] => []
  | x :: xs => Item.walk x ++ Item.walkAll xs

end

def Stylesheet.walk (sheet : Stylesheet) : List Item := Item.walkAll sheet.items

mutual

/-- The value itself and all values inside it. -/
def Value.values : Value → List Value
  | .call name arguments => .call name arguments :: Value.valuesAll arguments
  | .list values separator => .list values separator :: Value.valuesAll values
  | .ruleset block => .ruleset block :: Item.valuesAll block
  | value => [value]

def Value.valuesAll : List Value → List Value
  | [] => []
  | v :: vs => Value.values v ++ Value.valuesAll vs

/-- All values inside an item. -/
def Item.values : Item → List Value
  | .declaration _ value _ => Value.values value
  | .rule _ block => Item.valuesAll block
  | .mixin _ block => Item.valuesAll block
  | .variable _ value => Value.values value
  | .mixinCall _ => []
  | .variableCall _ => []

def Item.valuesAll : List Item → List Value
  | [] => []
  | x :: xs => Item.values x ++ Item.valuesAll xs

end

def Tree.values : Tree → List Value
  | .value v => v.values
  | .item x => x.values
  | .stylesheet sheet => Item.valuesAll sheet.items
  | _ => []

theorem Value.mem_values_self (v : Value) : v ∈ v.values := by
  cases v <;> simp [Value.values]

end LessSyntax
