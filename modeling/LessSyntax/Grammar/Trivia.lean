import LessSyntax.Grammar.CharClass
import LessSyntax.Rule.Basic
import LessSyntax.Settings

/-!
# Trivia

Blanks and comments may stand before every part of a stylesheet. A block comment ends at the
first `*/` behind its opening; a line comment, where the settings allow it, ends with its line
or with the text. Only a block comment without an end is an error. The end of a comment is a
place that counts from the start of the text.

* `trivia`: skips all trivia, and never misses.
* `token`, `symbol`: a rule, or given characters, with trivia before.
* `whole`: a rule that must read all of the text, up to trivia at the end.
* `commentEnd?_bounds`, `lineEnd_bounds`: a scan ends in the text.
-/

namespace LessSyntax.Grammar

open Rule

/-! ## Ends of comments -/

/-- The place behind the first `*/` of a text, when the text begins at the place `pos`. -/
def commentEnd? : Nat → List Char → Option Nat
  | _, [] => none
  | pos, c :: cs =>
    if ['*', '/'].isPrefixOf (c :: cs) then some (pos + 2) else commentEnd? (pos + 1) cs

/-- The place behind the first newline of a text, or else its end, when the text begins at the
place `pos`. -/
def lineEnd : Nat → List Char → Nat
  | pos, [] => pos
  | pos, c :: cs => if c == '\n' then pos + 1 else lineEnd (pos + 1) cs

theorem commentEnd?_bounds {pos stop : Nat} {cs : List Char}
    (h : commentEnd? pos cs = some stop) : pos + 2 ≤ stop ∧ stop ≤ pos + cs.length := by
  induction cs generalizing pos with
  | nil => cases h
  | cons c cs ih =>
    rw [commentEnd?] at h
    split at h
    · rename_i hclose
      cases h
      have := (List.isPrefixOf_iff_prefix.mp hclose).length_le
      simp only [List.length_cons] at this ⊢
      omega
    · have := ih h
      simp only [List.length_cons]
      omega

theorem lineEnd_bounds (pos : Nat) (cs : List Char) :
    pos ≤ lineEnd pos cs ∧ lineEnd pos cs ≤ pos + cs.length := by
  induction cs generalizing pos with
  | nil => simp [lineEnd]
  | cons c cs ih =>
    have := ih (pos + 1)
    rw [lineEnd, List.length_cons]
    split <;> omega

/-! ## Rules -/

/-- One blank or more. -/
def blanks : Rule Unit := fun c =>
  match (c.onward.takeWhile isBlank).length with
  | 0 => .missed c "blank"
  | count => .matched () (c.advance count)

def blockComment : Rule Unit := fun c =>
  if c.startsWith ['/', '*'] then
    let inside := (c.advance 2).counted
    match commentEnd? 0 inside.ahead with
    | some count => .matched () (inside.advance count)
    | none => .failed c (quoted ['*', '/']) "comment"
  else .missed c "comment"

def lineComment : Rule Unit := fun c =>
  if c.startsWith ['/', '/'] then
    let inside := (c.advance 2).counted
    .matched () (inside.advance (lineEnd 0 inside.ahead))
  else .missed c "comment"

/-- Blanks or a comment of a kind that the settings allow. -/
def triviaUnit (s : Settings) : Rule Unit :=
  choice (if s.lineComments then [blanks, blockComment, lineComment] else [blanks, blockComment])
    none

def trivia (s : Settings) : Rule Unit := map (fun _ => ()) (many (triviaUnit s))

variable {α : Type}

/-- The rule, with trivia before it. -/
def token (s : Settings) (rule : Rule α) : Rule α := fun c =>
  (trivia s c).bind fun _ rest => rule rest

/-- Exactly these characters, with trivia before them. -/
def symbol (s : Settings) (chars : List Char) : Rule Text := token s (literal chars)

/-- The rule, and then nothing but trivia. -/
def whole (s : Settings) (rule : Rule α) (expected : String) : Rule α :=
  terminated rule (token s (endOf expected))

end LessSyntax.Grammar
