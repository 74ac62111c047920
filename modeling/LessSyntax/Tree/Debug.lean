import LessSyntax.Text.Quoted
import LessSyntax.Tree.Basic

/-!
# The debugging form of a tree

Every node is shown as its kind with its fields in parentheses; texts are quoted, and an
absent unit is `None`. A block that stands as a value is shown by the number of its items
only.
-/

namespace LessSyntax

def Text.debug (t : Text) : String := quoted t.chars

namespace Debug

/-- A node: its kind and its fields. -/
def node (kind : String) (fields : List (String × String)) : String :=
  kind ++ "(" ++ ", ".intercalate (fields.map fun field => field.1 ++ "=" ++ field.2) ++ ")"

/-- Several nodes; a single one is followed by a comma. -/
def tuple : List String → String
  | [] => "()"
  | [x] => "(" ++ x ++ ",)"
  | xs => "(" ++ ", ".intercalate xs ++ ")"

def optional : Option String → String
  | some x => x
  | none => "None"

end Debug

open Debug

def Quote.debug (q : Quote) : String := quoted q.chars

def Separator.debug (s : Separator) : String := quoted [s.char]

namespace Interpolation

def debug : Interpolation → String
  | .variable name => node "Variable" [("name", name.debug)]
  | .property name => node "Property" [("name", name.debug)]

end Interpolation

def SelectorKind.label : SelectorKind → String
  | .byId => "id"
  | .byClass => "class"
  | .byType => "type"
  | .universal => "universal"

def Selector.debug (s : Selector) : String :=
  node "Selector" [("kind", quoted s.kind.label.toList), ("name", s.name.debug)]

def SelectorGroup.debug (group : SelectorGroup) : String :=
  tuple (group.toList.map Selector.debug)

def MixinPath.debug (path : MixinPath) : String :=
  node "MixinSelector" [("path", tuple (path.toList.map Selector.debug))]

/-- A block that stands as a value. -/
def Debug.ruleset (count : Nat) : String :=
  "DetachedRuleset(block=[" ++ toString count ++ " items])"

mutual

def Value.debug : Value → String
  | .string text quote => node "QuotedString" [("text", text.debug), ("quote", quote.debug)]
  | .interpolated first parts quote =>
    node "InterpolatedString"
      [("segments", tuple (first.debug :: parts.map fun part => part.2.debug)),
        ("interpolations", tuple (parts.map fun part => part.1.debug)),
        ("quote", quote.debug)]
  | .number value unit =>
    node "Number" [("value", value.debug), ("unit", optional (unit.map Text.debug))]
  | .color hex => node "Color" [("hex", hex.debug)]
  | .identifier name => node "Identifier" [("name", name.debug)]
  | .variable name => node "VariableRef" [("name", name.debug)]
  | .property name => node "PropertyRef" [("name", name.debug)]
  | .call name arguments =>
    node "Function" [("name", name.debug), ("arguments", tuple (Value.debugAll arguments))]
  | .url address => node "Url" [("text", address.debug)]
  | .list values separator =>
    node "ValueList"
      [("values", tuple (Value.debugAll values)), ("separator", separator.debug)]
  | .ruleset block => Debug.ruleset block.length

def Value.debugAll : List Value → List String
  | [] => []
  | v :: vs => Value.debug v :: Value.debugAll vs

end

mutual

def Item.debug : Item → String
  | .declaration name value important =>
    "Decl(" ++ (if important then "!, " else "") ++ name.debug ++ ", " ++ value.debug ++ ")"
  | .rule selectors block =>
    node "QualifiedRule"
      [("selector_group", SelectorGroup.debug selectors),
        ("block", tuple (Item.debugAll block))]
  | .mixin path block =>
    node "MixinDeclaration"
      [("selector", MixinPath.debug path), ("block", tuple (Item.debugAll block))]
  | .mixinCall path => node "MixinCall" [("selector", MixinPath.debug path)]
  | .variable name value =>
    node "VariableDeclaration" [("name", name.debug), ("value", value.debug)]
  | .variableCall name => node "VariableCall" [("name", name.debug)]

def Item.debugAll : List Item → List String
  | [] => []
  | x :: xs => Item.debug x :: Item.debugAll xs

end

def Stylesheet.debug (sheet : Stylesheet) : String :=
  "Stylesheet(\n  " ++ "\n  ".intercalate (Item.debugAll sheet.items) ++ "\n)"

def Tree.debug : Tree → String
  | .interpolation i => i.debug
  | .value v => v.debug
  | .selector s => s.debug
  | .selectors group => SelectorGroup.debug group
  | .mixinPath path => MixinPath.debug path
  | .item x => x.debug
  | .stylesheet sheet => sheet.debug

end LessSyntax
