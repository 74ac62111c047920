/-!
# Runs of code points

A property of characters is stored as the list of its runs: the first and the last code
point of each, in ascending order. `Runs.contains` looks a code point up and stops at the
first run that begins behind it.

* `Runs.mem_of_contains`: a code point that is found lies inside one of the runs.
* `Runs.not_contains_of_apart`: what is found in runs is not found in others apart from them.
-/

namespace LessSyntax.Unicode

/-- First and last code point of each run, in ascending order. -/
abbrev Runs := List (Nat × Nat)

namespace Runs

/-- The run that holds the code point. -/
def find? : Runs → Nat → Option (Nat × Nat)
  | [], _ => none
  | run :: runs, code =>
    if code < run.1 then none
    else if code ≤ run.2 then some run
    else find? runs code

def contains (runs : Runs) (code : Nat) : Bool := (runs.find? code).isSome

theorem find?_bounds {runs : Runs} {code : Nat} {run : Nat × Nat}
    (h : runs.find? code = some run) : run ∈ runs ∧ run.1 ≤ code ∧ code ≤ run.2 := by
  induction runs with
  | nil => cases h
  | cons head tail ih =>
    rw [find?] at h
    split at h
    · cases h
    · split at h
      · cases h
        exact ⟨List.mem_cons_self, by omega, by omega⟩
      · have := ih h
        exact ⟨List.mem_cons_of_mem _ this.1, this.2⟩

theorem mem_of_contains {runs : Runs} {code : Nat} (h : runs.contains code = true) :
    ∃ run ∈ runs, run.1 ≤ code ∧ code ≤ run.2 := by
  obtain ⟨run, hrun⟩ := Option.isSome_iff_exists.mp h
  exact ⟨run, find?_bounds hrun⟩

theorem not_contains_of_apart {runs others : Runs}
    (hapart : ∀ run ∈ runs, ∀ other ∈ others, run.2 < other.1 ∨ other.2 < run.1) {code : Nat}
    (h : runs.contains code = true) : others.contains code = false := by
  obtain ⟨run, hrun, hfirst, hlast⟩ := mem_of_contains h
  rw [Bool.eq_false_iff]
  intro hother
  obtain ⟨other, hmem, hfirst', hlast'⟩ := mem_of_contains hother
  have hapart' := hapart run hrun other hmem
  omega

end Runs

end LessSyntax.Unicode
