/-!
# Text

The names, numbers and other leaves of a syntax tree are texts. A text is its characters,
together with the place where they stand if they were read from a source. Texts are compared
by their characters alone (`Text.same`).

A place in a source is an offset. It may lie behind the end of the source, and a negative one
counts from the end. `fromStart` gives the offset from the start that a place stands for.

* `Text.length_borrowed`: the length of a text that lies in its source is the number of its
  characters.
-/

namespace LessSyntax

/-- The offset from the start of a text of the given size. A place that counts from the end
reaches no further back than the start. -/
def fromStart (size : Nat) (place : Int) : Nat :=
  if place < 0 then (place + size).toNat else place.toNat

theorem fromStart_of_nonneg {size : Nat} {place : Int} (h : 0 ≤ place) :
    fromStart size place = place.toNat := if_neg (by omega)

@[simp]
theorem fromStart_natCast (size place : Nat) : fromStart size place = place := by
  simp [fromStart_of_nonneg]

/-- The places of the first character and of the one after the last. -/
structure Span where
  start : Int
  stop : Int
  deriving DecidableEq

/-- Whether the end stands before the start. -/
def Span.isBackward (span : Span) : Bool := span.stop < span.start

structure Text where
  chars : List Char
  span : Option Span
  deriving DecidableEq

/-- Why a text has no length. -/
inductive LengthError where
  /-- Its span is backward. -/
  | negative
  deriving DecidableEq

def LengthError.message : LengthError → String
  | .negative => "__len__() should return >= 0"

namespace Text

/-- A text that stands in no source. -/
def owned (chars : List Char) : Text := ⟨chars, none⟩

/-- The text between two places of a source. The second place may lie before the first, and
either behind the end: the span is kept as given, and the characters are those that are
there. -/
def borrowed (source : List Char) (start stop : Int) : Text :=
  ⟨(source.drop (fromStart source.length start)).take
    (fromStart source.length stop - fromStart source.length start), some ⟨start, stop⟩⟩

def isBorrowed (t : Text) : Bool := t.span.isSome

/-- The same characters, cut loose from their source. -/
def toOwned (t : Text) : Text := owned t.chars

/-- Whether the text has a length: its span, if there is one, is not backward. -/
def hasLength (t : Text) : Bool := t.span.all fun span => !span.isBackward

/-- The length that the span states, or else the number of characters. -/
def length (t : Text) : Except LengthError Nat :=
  match t.span with
  | some span => if span.isBackward then .error .negative else .ok (span.stop - span.start).toNat
  | none => .ok t.chars.length

def same (t u : Text) : Bool := t.chars == u.chars

@[simp]
theorem same_iff {t u : Text} : t.same u = true ↔ t.chars = u.chars := by
  simp [same]

@[simp]
theorem same_toOwned (t : Text) : t.same t.toOwned = true := by
  simp [same, toOwned, owned]

theorem hasLength_iff {t : Text} : t.hasLength = true ↔ ∃ count, t.length = .ok count := by
  obtain ⟨chars, span⟩ := t
  cases span with
  | none => simp [hasLength, length]
  | some span => cases h : span.isBackward <;> simp [hasLength, length, h]

theorem length_borrowed {source : List Char} {start stop : Nat} (h : start ≤ stop)
    (hstop : stop ≤ source.length) :
    (borrowed source start stop).length = .ok (borrowed source start stop).chars.length := by
  have hforward : (⟨start, stop⟩ : Span).isBackward = false := by
    simpa [Span.isBackward] using h
  simp only [length, borrowed, hforward, List.length_take, List.length_drop, fromStart_natCast]
  simp only [Bool.false_eq_true, if_false, Except.ok.injEq]
  omega

end Text

end LessSyntax
