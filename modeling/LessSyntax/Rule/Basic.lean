import LessSyntax.OneOrMore
import LessSyntax.Rule.Cursor

/-!
# Rules

A rule reads from a cursor and has one of three outcomes. It matches, with a value and the
cursor behind what it read; it misses, so that something else may be tried at the same place;
or it fails, which nothing tries to repair. A miss and a failure state what was expected and
where. A failure also names the rule that was committed to what it had seen.

Rules are combined by the functions below. `choice` and `opt` are the only ones that go on
after a miss, besides repetitions, which end with one. `cut` turns misses into failures.

* `Rule.choice_singleton`: a choice of one rule is that rule, up to what it says it expects.
-/

namespace LessSyntax

inductive Outcome (α : Type) where
  | matched (value : α) (rest : Cursor)
  | missed (place : Cursor) (expected : String)
  | failed (place : Cursor) (expected : String) (rule : String)

namespace Outcome

variable {α β : Type}

/-- Goes on after a match. -/
def bind (outcome : Outcome α) (next : α → Cursor → Outcome β) : Outcome β :=
  match outcome with
  | .matched value rest => next value rest
  | .missed place expected => .missed place expected
  | .failed place expected rule => .failed place expected rule

def map (f : α → β) (outcome : Outcome α) : Outcome β :=
  outcome.bind fun value rest => .matched (f value) rest

/-- Goes on after a miss. Of two misses the one further into the text counts, and the first of
two at the same place. -/
def orElse (first : Outcome α) (second : Unit → Outcome α) : Outcome α :=
  match first with
  | .missed place expected =>
    match second () with
    | .missed place' expected' =>
      if place.pos < place'.pos then .missed place' expected' else .missed place expected
    | outcome => outcome
  | outcome => outcome

/-- Says of a miss what was expected. -/
def relabel (expected : Option String) (outcome : Outcome α) : Outcome α :=
  match outcome, expected with
  | .missed place _, some expected => .missed place expected
  | outcome, _ => outcome

@[simp]
theorem matched_bind (value : α) (rest : Cursor) (next : α → Cursor → Outcome β) :
    (matched value rest).bind next = next value rest := rfl

@[simp]
theorem missed_bind (place : Cursor) (expected : String) (next : α → Cursor → Outcome β) :
    (missed place expected).bind next = missed place expected := rfl

@[simp]
theorem failed_bind (place : Cursor) (expected rule : String) (next : α → Cursor → Outcome β) :
    (failed place expected rule).bind next = failed place expected rule := rfl

@[simp]
theorem matched_map (f : α → β) (value : α) (rest : Cursor) :
    (matched value rest).map f = matched (f value) rest := rfl

@[simp]
theorem missed_map (f : α → β) (place : Cursor) (expected : String) :
    (missed place expected).map f = missed place expected := rfl

@[simp]
theorem failed_map (f : α → β) (place : Cursor) (expected rule : String) :
    (failed place expected rule).map f = failed place expected rule := rfl

@[simp]
theorem matched_orElse (value : α) (rest : Cursor) (second : Unit → Outcome α) :
    (matched value rest).orElse second = matched value rest := rfl

@[simp]
theorem failed_orElse (place : Cursor) (expected rule : String) (second : Unit → Outcome α) :
    (failed place expected rule).orElse second = failed place expected rule := rfl

end Outcome

/-- A way to read a value from a cursor. -/
abbrev Rule (α : Type) := Cursor → Outcome α

namespace Rule

variable {α β γ : Type}

/-! ## Choice -/

/-- The first of the rules that does not miss. -/
def firstOf (rule : Rule α) : List (Rule α) → Rule α
  | [], c => rule c
  | next :: rules, c => (rule c).orElse fun _ => firstOf next rules c

/-- The first rule that does not miss; if all miss, the miss that got furthest, with the given
label if there is one. Without any rule, an empty label counts as none. -/
def choice (rules : List (Rule α)) (expected : Option String) : Rule α := fun c =>
  match rules with
  | [] => .missed c (match expected with
    | none => "nothing"
    | some "" => "nothing"
    | some expected => expected)
  | rule :: rules => (firstOf rule rules c).relabel expected

/-- The rule's value, or nothing after a miss. -/
def opt (rule : Rule α) : Rule (Option α) := fun c =>
  match rule c with
  | .matched value rest => .matched (some value) rest
  | .missed _ _ => .matched none c
  | .failed place expected blamed => .failed place expected blamed

/-! ## Sequence -/

def map (f : α → β) (rule : Rule α) : Rule β := fun c => (rule c).map f

/-- One rule after the other. -/
def both (first : Rule α) (second : Rule β) : Rule (α × β) := fun c =>
  (first c).bind fun a rest => (second rest).map fun b => (a, b)

/-- All rules in order. -/
def sequence : List (Rule α) → Rule (List α)
  | [], c => .matched [] c
  | rule :: rules, c =>
    (rule c).bind fun value rest => (sequence rules rest).map (value :: ·)

/-- Both rules; the value of the second. -/
def preceded (before : Rule α) (rule : Rule β) : Rule β := map Prod.snd (both before rule)

/-- Both rules; the value of the first. -/
def terminated (rule : Rule α) (after : Rule β) : Rule α := map Prod.fst (both rule after)

/-- All three rules; the value of the middle one. -/
def delimited (before : Rule α) (rule : Rule β) (after : Rule γ) : Rule β :=
  preceded before (terminated rule after)

/-- The rule without moving on. -/
def peek (rule : Rule α) : Rule α := fun c =>
  match rule c with
  | .matched value _ => .matched value c
  | outcome => outcome

/-- Commits to the rule: a miss becomes a failure of `context`. -/
def cut (rule : Rule α) (context : String) : Rule α := fun c =>
  match rule c with
  | .missed place expected => .failed place expected context
  | outcome => outcome

/-! ## Repetition -/

/-- The rule as often as it matches, and no more often than `bound`. A match that reads nothing
ends the repetition and does not count. -/
def manyUpTo (rule : Rule α) (bound : Nat) : Rule (List α) := fun c =>
  match rule c with
  | .failed place expected blamed => .failed place expected blamed
  | .missed _ _ => .matched [] c
  | .matched value rest =>
    if rest.pos = c.pos then .matched [] c
    else
      match bound with
      | 0 => .matched [] c
      | bound + 1 => (manyUpTo rule bound rest).map (value :: ·)

/-- The rule as often as it matches. A match that counts goes on by a place at least, so that
the room up to the end of the text bounds the number of matches. -/
def many (rule : Rule α) : Rule (List α) := fun c => manyUpTo rule c.room c

/-- The rule once, and then as often as it matches. -/
def many1 (rule : Rule α) : Rule (OneOrMore α) := fun c =>
  (rule c).bind fun first rest => (many rule rest).map fun others => ⟨first, others⟩

/-- A separator and the rule, again and again, and no more often than `bound`. -/
def separatedUpTo (rule : Rule α) (separator : Rule β) (context : String) (bound : Nat) :
    Rule (List α) := fun c =>
  match separator c with
  | .failed place expected blamed => .failed place expected blamed
  | .missed _ _ => .matched [] c
  | .matched _ next =>
    (cut rule context next).bind fun value rest =>
      match bound with
      | 0 => .matched [] c
      | bound + 1 => (separatedUpTo rule separator context bound rest).map (value :: ·)

/-- The rule once or more, with the separator between. A separator commits: the rule must
match behind it. A separator and the rule go on by a place at least, so that the room up to
the end of the text bounds the number of separators. -/
def separated1 (rule : Rule α) (separator : Rule β) (context : String) : Rule (OneOrMore α) :=
  fun c =>
    (rule c).bind fun first rest =>
      (separatedUpTo rule separator context rest.room rest).map fun others => ⟨first, others⟩

/-! ## Leaves -/

/-- Matches at the end of the text only. -/
def endOf (expected : String) : Rule Unit := fun c =>
  if c.atEnd then .matched () c else .missed c expected

/-- Exactly these characters. -/
def literal (chars : List Char) : Rule Text := fun c =>
  if c.startsWith chars then .matched (c.next chars.length) (c.advance chars.length)
  else .missed c (quoted chars)

/-- As many characters as a measure of the characters that are met by reading on says. -/
def scan (length? : List Char → Option Nat) (expected : String) : Rule Text := fun c =>
  match length? c.onward with
  | some count => .matched (c.next count) (c.advance count)
  | none => .missed c expected

/-! ## Small laws -/

@[simp]
theorem choice_singleton (rule : Rule α) (expected : Option String) (c : Cursor) :
    choice [rule] expected c = (rule c).relabel expected := rfl

end Rule

end LessSyntax
