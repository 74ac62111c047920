import LessSyntax.Text.Basic
import LessSyntax.Text.Quoted

/-!
# Cursors

A cursor is a place in a text together with the number of blocks and calls that are open
there.

A cursor may stand behind the end of its text: nothing is ahead of it then, and no literal
stands there, not even the empty one. It may also stand at a place that counts from the end.
What is ahead of it reaches to the end of the text then; but the place after the last one that
counts from the end is the start, so that reading on character by character goes through the
whole text once more (`onward`).

* `Cursor.ext_pos`: a cursor is known by its text, its place and its depth.
* `Cursor.onward_eq`, `Cursor.ahead_advance`: at a place that counts from the start, reading on
  stays ahead, and moving on drops characters from what lies ahead.
* `Cursor.slice_eq`: a slice is the text between the cursor and the given place.
-/

namespace LessSyntax

/-- The size of the text and the characters ahead are kept beside it, so that moving on does
not start from the beginning of the text again. -/
structure Cursor where
  text : List Char
  size : Nat
  /-- The text from the place on. -/
  ahead : List Char
  pos : Int
  depth : Int
  size_eq : size = text.length
  ahead_eq : ahead = text.drop (fromStart size pos)

namespace Cursor

def of (text : List Char) (pos depth : Int) : Cursor where
  text := text
  size := text.length
  ahead := text.drop (fromStart text.length pos)
  pos := pos
  depth := depth
  size_eq := rfl
  ahead_eq := rfl

/-- The start of a text, with nothing open. -/
def ofText (text : List Char) : Cursor := of text 0 0

def atEnd (c : Cursor) : Bool := c.size ≤ c.pos

/-- Whether the cursor does not stand behind the end of its text. -/
def inText (c : Cursor) : Bool := c.pos ≤ c.size

/-- The number of places between the cursor and the end of the text. -/
def room (c : Cursor) : Nat := (c.size - c.pos).toNat

/-- The characters that are met by reading on, one place after the other. -/
def onward (c : Cursor) : List Char := if c.pos < 0 then c.ahead ++ c.text else c.ahead

def startsWith (c : Cursor) (literal : List Char) : Bool :=
  literal.isPrefixOf c.ahead && (!literal.isEmpty || c.inText)

/-! ## Moving -/

def moveTo (c : Cursor) (pos : Int) : Cursor where
  text := c.text
  size := c.size
  ahead := c.text.drop (fromStart c.size pos)
  pos := pos
  depth := c.depth
  size_eq := c.size_eq
  ahead_eq := rfl

theorem ahead_drop {c : Cursor} (h : 0 ≤ c.pos) (count : Nat) :
    c.ahead.drop count = c.text.drop (fromStart c.size (c.pos + count)) := by
  rw [c.ahead_eq, List.drop_drop, fromStart_of_nonneg h, fromStart_of_nonneg (by omega)]
  congr 1
  omega

def advance (c : Cursor) (count : Nat) : Cursor :=
  if h : 0 ≤ c.pos then
    { c with ahead := c.ahead.drop count, pos := c.pos + count, ahead_eq := ahead_drop h count }
  else c.moveTo (c.pos + count)

def withDepth (c : Cursor) (depth : Int) : Cursor := { c with depth }

/-- The same place inside one more block or call. -/
def nested (c : Cursor) : Cursor := c.withDepth (c.depth + 1)

/-- The cursor moved back to the end of the text if it stood behind it. -/
def clamped (c : Cursor) : Cursor := if c.inText then c else c.moveTo c.size

/-- The start of the text for a cursor at a place that counts from the end. -/
def notBeforeStart (c : Cursor) : Cursor := if c.pos < 0 then c.moveTo 0 else c

/-- The same place, counted from the start. -/
def counted (c : Cursor) : Cursor := if c.pos < 0 then c.moveTo (fromStart c.size c.pos) else c

/-! ## Slices -/

/-- The text from the cursor to a place. -/
def slice (c : Cursor) (stop : Int) : Text :=
  ⟨c.ahead.take (fromStart c.size stop - fromStart c.size c.pos), some ⟨c.pos, stop⟩⟩

/-- The text from the cursor to the place that many further on. -/
def next (c : Cursor) (count : Int) : Text := c.slice (c.pos + count)

/-- The next characters, fewer near the end of the text. -/
def peek (c : Cursor) (count : Int) : List Char := (c.next count).chars

/-- The most characters that the debugging form shows of what is ahead. -/
def debugLimit : Nat := 20

def debug (c : Cursor) : String :=
  "Input(pos=" ++ toString c.pos ++ ", depth=" ++ toString c.depth ++ ", remaining="
    ++ quoted (c.ahead.take debugLimit) ++ ")"

/-! ## Laws -/

theorem ext_pos {c d : Cursor} (htext : c.text = d.text) (hpos : c.pos = d.pos)
    (hdepth : c.depth = d.depth) : c = d := by
  obtain ⟨text, size, ahead, pos, depth, rfl, rfl⟩ := c
  obtain ⟨text', size', ahead', pos', depth', rfl, rfl⟩ := d
  cases htext
  cases hpos
  cases hdepth
  rfl

@[simp]
theorem text_advance (c : Cursor) (count : Nat) : (c.advance count).text = c.text := by
  unfold advance
  split <;> rfl

@[simp]
theorem pos_advance (c : Cursor) (count : Nat) : (c.advance count).pos = c.pos + count := by
  unfold advance
  split <;> rfl

@[simp]
theorem depth_advance (c : Cursor) (count : Nat) : (c.advance count).depth = c.depth := by
  unfold advance
  split <;> rfl

theorem ahead_advance {c : Cursor} (h : 0 ≤ c.pos) (count : Nat) :
    (c.advance count).ahead = c.ahead.drop count := by
  rw [advance, dif_pos h]

@[simp]
theorem advance_advance (c : Cursor) (m n : Nat) :
    (c.advance m).advance n = c.advance (m + n) := by
  refine ext_pos ?_ ?_ ?_
  · simp
  · rw [pos_advance, pos_advance, pos_advance]
    omega
  · simp

@[simp]
theorem advance_zero (c : Cursor) : c.advance 0 = c := by
  refine ext_pos (text_advance c 0) ?_ (depth_advance c 0)
  simp

@[simp]
theorem text_moveTo (c : Cursor) (pos : Int) : (c.moveTo pos).text = c.text := rfl

@[simp]
theorem pos_moveTo (c : Cursor) (pos : Int) : (c.moveTo pos).pos = pos := rfl

@[simp]
theorem depth_moveTo (c : Cursor) (pos : Int) : (c.moveTo pos).depth = c.depth := rfl

@[simp]
theorem text_withDepth (c : Cursor) (depth : Int) : (c.withDepth depth).text = c.text := rfl

@[simp]
theorem pos_withDepth (c : Cursor) (depth : Int) : (c.withDepth depth).pos = c.pos := rfl

@[simp]
theorem depth_withDepth (c : Cursor) (depth : Int) : (c.withDepth depth).depth = depth := rfl

theorem onward_eq {c : Cursor} (h : 0 ≤ c.pos) : c.onward = c.ahead := if_neg (by omega)

theorem notBeforeStart_eq {c : Cursor} (h : 0 ≤ c.pos) : c.notBeforeStart = c :=
  if_neg (by omega)

theorem counted_eq {c : Cursor} (h : 0 ≤ c.pos) : c.counted = c := if_neg (by omega)

theorem length_ahead {c : Cursor} (h : 0 ≤ c.pos) : c.ahead.length = c.room := by
  rw [c.ahead_eq, List.length_drop, fromStart_of_nonneg h, room, c.size_eq]
  omega

theorem slice_eq (c : Cursor) (stop : Int) : c.slice stop = Text.borrowed c.text c.pos stop := by
  simp [slice, Text.borrowed, c.ahead_eq, c.size_eq]

theorem chars_next {c : Cursor} (h : 0 ≤ c.pos) (count : Nat) :
    (c.next count).chars = c.ahead.take count := by
  have hcount : fromStart c.size (c.pos + count) - fromStart c.size c.pos = count := by
    rw [fromStart_of_nonneg h, fromStart_of_nonneg (by omega)]
    omega
  simp only [next, slice, hcount]

end Cursor

end LessSyntax
