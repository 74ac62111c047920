import LessSyntax.Tree.Basic

/-!
# Nesting

How many blocks and calls of a tree are open at once, at most. A block counts even when it is
empty, and a call even without arguments.

* `Tree.nesting`: the nesting of a tree.
* `Value.nestingAll_le`, `Item.nestingAll_le`: a list is nested no deeper than each of its
  elements.
-/

namespace LessSyntax

mutual

def Value.nesting : Value → Nat
  | .call _ arguments => Value.nestingAll arguments + 1
  | .list values _ => Value.nestingAll values
  | .ruleset block => Item.nestingAll block + 1
  | _ => 0

def Value.nestingAll : List Value → Nat
  | [] => 0
  | v :: vs => max (Value.nesting v) (Value.nestingAll vs)

def Item.nesting : Item → Nat
  | .declaration _ value _ => Value.nesting value
  | .rule _ block => Item.nestingAll block + 1
  | .mixin _ block => Item.nestingAll block + 1
  | .variable _ value => Value.nesting value
  | .mixinCall _ => 0
  | .variableCall _ => 0

def Item.nestingAll : List Item → Nat
  | [] => 0
  | x :: xs => max (Item.nesting x) (Item.nestingAll xs)

end

/-- The largest number of blocks and calls that are open at once. -/
def Tree.nesting : Tree → Nat
  | .value v => v.nesting
  | .item x => x.nesting
  | .stylesheet sheet => Item.nestingAll sheet.items
  | _ => 0

theorem Value.nestingAll_le {vs : List Value} {n : Nat} :
    Value.nestingAll vs ≤ n ↔ ∀ v ∈ vs, v.nesting ≤ n := by
  induction vs with
  | nil => simp [Value.nestingAll]
  | cons v vs ih => rw [Value.nestingAll, Nat.max_le, ih, List.forall_mem_cons]

theorem Item.nestingAll_le {xs : List Item} {n : Nat} :
    Item.nestingAll xs ≤ n ↔ ∀ x ∈ xs, x.nesting ≤ n := by
  induction xs with
  | nil => simp [Item.nestingAll]
  | cons x xs ih => rw [Item.nestingAll, Nat.max_le, ih, List.forall_mem_cons]

end LessSyntax
