import LessSyntax.Grammar.CharClass
import LessSyntax.Rule.Basic

/-!
# Names

A name begins with up to two hyphens and a start character, and goes on with name characters
as long as there are any.

* `name`: a name.
* `atName`: a name behind an `@`; a miss does not tell which of the two is wrong.
* `nameLength?_bounds`, `nameLength?_maximal`: a name is not empty, and no name character
  follows it.
-/

namespace LessSyntax.Grammar

open Rule

/-- The number of hyphens that a text begins with; two at most are counted. -/
def hyphenCount (cs : List Char) : Nat := ((cs.take 2).takeWhile (· == '-')).length

/-- The length of the name that a text begins with. -/
def nameLength? (cs : List Char) : Option Nat :=
  match cs.drop (hyphenCount cs) with
  | [] => none
  | c :: rest =>
    if isNameStart c then some (hyphenCount cs + 1 + (rest.takeWhile isNameChar).length) else none

theorem nameLength?_bounds {cs : List Char} {count : Nat} (h : nameLength? cs = some count) :
    0 < count ∧ count ≤ cs.length := by
  unfold nameLength? at h
  split at h
  · cases h
  · rename_i c rest hdrop
    split at h
    · cases h
      have hlength := congrArg List.length hdrop
      have := (List.takeWhile_sublist (l := rest) isNameChar).length_le
      simp only [List.length_drop, List.length_cons] at hlength
      omega
    · cases h

/-- No name character follows a name. -/
theorem nameLength?_maximal {cs : List Char} {count : Nat} (h : nameLength? cs = some count) :
    ∀ c ∈ (cs.drop count).head?, isNameChar c = false := by
  unfold nameLength? at h
  split at h
  · cases h
  · rename_i start rest hdrop
    split at h
    · cases h
      have hrest : cs.drop (hyphenCount cs + 1 + (rest.takeWhile isNameChar).length)
          = rest.dropWhile isNameChar := by
        rw [Nat.add_assoc, ← List.drop_drop, hdrop, Nat.add_comm 1, List.drop_succ_cons,
          drop_takeWhile_length]
      rw [hrest]
      intro c hc
      have hstop := List.head?_dropWhile_not isNameChar rest
      rw [Option.mem_def.mp hc] at hstop
      exact hstop
    · cases h

def name : Rule Text := scan nameLength? "identifier"

def atName : Rule Text := fun c =>
  if c.startsWith ['@'] then
    match name (c.advance 1) with
    | .matched found rest => .matched found rest
    | _ => .missed c "at-keyword"
  else .missed c "at-keyword"

/-- A name behind the given characters. -/
def nameAfter (chars : List Char) : Rule Text := preceded (literal chars) name

end LessSyntax.Grammar
