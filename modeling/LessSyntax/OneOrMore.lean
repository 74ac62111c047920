/-!
# Lists of one or more elements

* `OneOrMore.toList_of_ofList?`: what is built from a list has the elements of that list.
-/

namespace LessSyntax

/-- A list that is not empty. -/
structure OneOrMore (α : Type) where
  first : α
  others : List α
  deriving DecidableEq

namespace OneOrMore

variable {α β : Type}

def toList (xs : OneOrMore α) : List α := xs.first :: xs.others

def ofList? : List α → Option (OneOrMore α)
  | [] => none
  | x :: xs => some ⟨x, xs⟩

def map (f : α → β) (xs : OneOrMore α) : OneOrMore β := ⟨f xs.first, xs.others.map f⟩

/-- The last element. -/
def last (xs : OneOrMore α) : α := xs.others.getLastD xs.first

@[simp]
theorem toList_ne_nil (xs : OneOrMore α) : xs.toList ≠ [] := List.cons_ne_nil _ _

@[simp]
theorem ofList?_toList (xs : OneOrMore α) : ofList? xs.toList = some xs := rfl

theorem toList_of_ofList? {l : List α} {xs : OneOrMore α} (h : ofList? l = some xs) :
    xs.toList = l := by
  cases l with
  | nil => cases h
  | cons x l =>
    cases h
    rfl

end OneOrMore

end LessSyntax
