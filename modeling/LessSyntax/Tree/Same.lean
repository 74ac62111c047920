import LessSyntax.Tree.Basic

/-!
# Equality of content

Two trees have the same content when they have the same shape and their texts have the same
characters. Where a text stands and which quotation marks a string uses is no content.
-/

namespace LessSyntax

namespace Interpolation

def same : Interpolation → Interpolation → Bool
  | .variable a, .variable b => a.same b
  | .property a, .property b => a.same b
  | _, _ => false

end Interpolation

/-- Pairs of equal length with the same content. -/
def sameParts : List (Interpolation × Text) → List (Interpolation × Text) → Bool
  | [], [] => true
  | (i, t) :: xs, (j, u) :: ys => i.same j && t.same u && sameParts xs ys
  | _, _ => false

/-- An absent unit differs from an empty one. -/
def sameUnit : Option Text → Option Text → Bool
  | none, none => true
  | some a, some b => a.same b
  | _, _ => false

namespace Selector

def same (a b : Selector) : Bool := a.kind == b.kind && a.name.same b.name

def sameAll : List Selector → List Selector → Bool
  | [], [] => true
  | a :: as, b :: bs => a.same b && sameAll as bs
  | _, _ => false

end Selector

def OneOrMore.sameSelectors (a b : OneOrMore Selector) : Bool :=
  Selector.sameAll a.toList b.toList

mutual

def Value.same : Value → Value → Bool
  | .string a _, .string b _ => a.same b
  | .interpolated a xs _, .interpolated b ys _ => a.same b && sameParts xs ys
  | .number a u, .number b v => a.same b && sameUnit u v
  | .color a, .color b => a.same b
  | .identifier a, .identifier b => a.same b
  | .variable a, .variable b => a.same b
  | .property a, .property b => a.same b
  | .call a xs, .call b ys => a.same b && Value.sameAll xs ys
  | .url a, .url b => a.same b
  | .list xs s, .list ys t => s == t && Value.sameAll xs ys
  | .ruleset xs, .ruleset ys => Item.sameAll xs ys
  | _, _ => false

def Value.sameAll : List Value → List Value → Bool
  | [], [] => true
  | x :: xs, y :: ys => Value.same x y && Value.sameAll xs ys
  | _, _ => false

def Item.same : Item → Item → Bool
  | .declaration a v i, .declaration b w j => a.same b && Value.same v w && i == j
  | .rule a xs, .rule b ys => a.sameSelectors b && Item.sameAll xs ys
  | .mixin a xs, .mixin b ys => a.sameSelectors b && Item.sameAll xs ys
  | .mixinCall a, .mixinCall b => a.sameSelectors b
  | .variable a v, .variable b w => a.same b && Value.same v w
  | .variableCall a, .variableCall b => a.same b
  | _, _ => false

def Item.sameAll : List Item → List Item → Bool
  | [], [] => true
  | x :: xs, y :: ys => Item.same x y && Item.sameAll xs ys
  | _, _ => false

end

namespace Tree

def same : Tree → Tree → Bool
  | .interpolation a, .interpolation b => a.same b
  | .value a, .value b => a.same b
  | .selector a, .selector b => a.same b
  | .selectors a, .selectors b => a.sameSelectors b
  | .mixinPath a, .mixinPath b => a.sameSelectors b
  | .item a, .item b => a.same b
  | .stylesheet a, .stylesheet b => Item.sameAll a.items b.items
  | _, _ => false

end Tree

end LessSyntax
