import LessSyntax.Text.Quoted

/-!
# Sources

A source is the text that is read, with the address it came from. Lines end at newlines only;
lines and columns are counted from one. Carriage returns at the end of a line are no part of
it. The columns of every line go on without end; those of the last line also go on before the
start of the text, where the line is zero.

* `Source.location_column`: the column counts the characters since the last newline.
-/

namespace LessSyntax

structure Source where
  chars : List Char
  url : Option String
  deriving DecidableEq

namespace Source

/-- The address, or `<input>` where there is none or an empty one. -/
def displayName (url : Option String) : String :=
  match url with
  | some "" => "<input>"
  | some url => url
  | none => "<input>"

structure Location where
  line : Nat
  column : Int
  deriving DecidableEq

/-- What stands behind the last newline. -/
def lastLine (cs : List Char) : List Char := (cs.reverse.takeWhile (· != '\n')).reverse

/-- Where the last line of a text begins. -/
def lastLineStart (cs : List Char) : Nat := cs.length - (lastLine cs).length

/-- Line and column of an offset. -/
def location (source : Source) (offset : Int) : Location :=
  if offset < 0 then ⟨0, offset - lastLineStart source.chars + 1⟩
  else
    let before := source.chars.take offset.toNat
    ⟨before.count '\n' + 1, offset - lastLineStart before + 1⟩

/-- The lines of a text; there is always one more than there are newlines. -/
def lines : List Char → List (List Char)
  | [] => [[]]
  | c :: cs =>
    if c == '\n' then [] :: lines cs
    else match lines cs with
      | line :: others => (c :: line) :: others
      | [] => [[c]]

def trimReturns (line : List Char) : List Char := (line.reverse.dropWhile (· == '\r')).reverse

/-- The line of the given number, and nothing where there is no such line. -/
def line (source : Source) (number : Int) : List Char :=
  match number with
  | .ofNat (index + 1) => trimReturns ((lines source.chars).getD index [])
  | _ => []

def debug (source : Source) : String :=
  "Source(" ++ displayName source.url ++ ", " ++ toString source.chars.length ++ " chars)"

theorem lastLine_length_le (cs : List Char) : (lastLine cs).length ≤ cs.length := by
  have := (List.takeWhile_sublist (l := cs.reverse) (· != '\n')).length_le
  simpa [lastLine] using this

theorem location_eq (source : Source) (offset : Nat) :
    source.location offset = ⟨(source.chars.take offset).count '\n' + 1,
      offset - lastLineStart (source.chars.take offset) + 1⟩ :=
  if_neg (by omega)

theorem location_column {source : Source} {offset : Nat} (h : offset ≤ source.chars.length) :
    (source.location offset).column = (lastLine (source.chars.take offset)).length + 1 := by
  have hle := lastLine_length_le (source.chars.take offset)
  rw [location_eq]
  simp only [lastLineStart, List.length_take] at hle ⊢
  omega

@[simp]
theorem length_lines (cs : List Char) : (lines cs).length = cs.count '\n' + 1 := by
  induction cs with
  | nil => rfl
  | cons c cs ih =>
    rw [lines]
    by_cases h : c = '\n'
    · simp [h, ih]
    · have hne : (c == '\n') = false := by simpa using h
      rw [hne, List.count_cons_of_ne h]
      cases hl : lines cs with
      | nil => rw [hl] at ih; simp at ih
      | cons line others => rw [hl] at ih; simpa using ih

end Source

end LessSyntax
