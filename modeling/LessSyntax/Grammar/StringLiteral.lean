import LessSyntax.Grammar.Name
import LessSyntax.Tree.Basic

/-!
# String literals

A string stands between two equal quotation marks and holds segments of plain text with
interpolations between them. A backslash keeps the next character from having a meaning; both
stay in the segment. After the opening mark the string is committed: a newline or the end of
the text is a failure, and so is an interpolation that does not close.

The rules take any text for the mark. A string opens and closes where the text of the mark
stands, one character of it is read, and a segment ends only at a mark of one character.

* `stringLiteral`: a string between marks of the given kind.
* `quotedString`: a string between marks of either kind.
* `segmentEnd_shift`: what a scan finds does not depend on where it begins to count.
* `segmentEnd_bounds`, `segmentEnd_stop`: a segment ends in the text, at the closing mark or
  where an interpolation opens.
* `segment_eq`: at a place that counts from the start, a segment lies in the text ahead.
-/

namespace LessSyntax.Grammar

open Rule

/-- Whether an interpolation opens here. -/
def opensInterpolation (cs : List Char) : Bool :=
  ['@', '{'].isPrefixOf cs || ['$', '{'].isPrefixOf cs

/-- Whether a segment ends here. -/
def endsSegment (quote : Quote) (c : Char) (cs : List Char) : Bool :=
  [c] == quote.chars || opensInterpolation (c :: cs)

/-- The place where the segment at the start of a text ends, when the text begins at the place
`pos`. The error is the place where the segment cannot go on; a backslash takes a character
with it even where there is none. -/
def segmentEnd (quote : Quote) : Nat → List Char → Except Nat Nat
  | pos, [] => .error pos
  | pos, c :: cs =>
    if endsSegment quote c cs then .ok pos
    else if c == '\\' then
      match cs with
      | [] => .error (pos + 2)
      | _ :: ds => segmentEnd quote (pos + 2) ds
    else if c == '\n' then .error pos
    else segmentEnd quote (pos + 1) cs

theorem segmentEnd_shift (quote : Quote) (count pos : Nat) (cs : List Char) :
    segmentEnd quote (count + pos) cs =
      match segmentEnd quote pos cs with
      | .ok stop => .ok (count + stop)
      | .error stop => .error (count + stop) := by
  fun_induction segmentEnd quote pos cs with
  | case1 pos => rfl
  | _ =>
    conv =>
      lhs
      unfold segmentEnd
    simp_all [Nat.add_assoc]

theorem segmentEnd_bounds {quote : Quote} {pos stop : Nat} {cs : List Char}
    (h : segmentEnd quote pos cs = .ok stop) : pos ≤ stop ∧ stop < pos + cs.length := by
  fun_induction segmentEnd quote pos cs with
  | case1 | case3 | case5 => cases h
  | case2 pos c cs _ =>
    cases h
    simp only [List.length_cons]
    omega
  | case4 _ _ _ _ _ _ ih | case6 _ _ _ _ _ _ ih =>
    have := ih h
    simp only [List.length_cons]
    omega

/-- A segment ends at the closing mark or where an interpolation opens. -/
theorem segmentEnd_stop {quote : Quote} {pos stop : Nat} {cs : List Char}
    (h : segmentEnd quote pos cs = .ok stop) :
    ∃ c rest, cs.drop (stop - pos) = c :: rest ∧ endsSegment quote c rest = true := by
  have later {c : Char} {cs : List Char} {pos step : Nat} (hle : pos + step ≤ stop) :
      (c :: cs).drop (stop - pos) = (c :: cs).drop (step + (stop - (pos + step))) := by
    congr 1
    omega
  fun_induction segmentEnd quote pos cs with
  | case1 | case3 | case5 => cases h
  | case2 pos c cs hends =>
    cases h
    exact ⟨c, cs, by simp, hends⟩
  | case4 pos c _ d ds _ ih =>
    rw [later (segmentEnd_bounds h).1, Nat.add_comm 2]
    exact ih h
  | case6 pos c cs _ _ _ ih =>
    rw [later (segmentEnd_bounds h).1, Nat.add_comm 1]
    exact ih h

/-- The same from a cursor, in the text ahead of it. -/
def segmentAhead (quote : Quote) (c : Cursor) : Except Cursor Cursor :=
  match segmentEnd quote 0 c.ahead with
  | .ok count => .ok (c.advance count)
  | .error count => .error (c.advance count)

/-- Where the segment at a cursor ends. A segment that begins at a place that counts from the
end may go on behind the start. -/
def segmentStop (quote : Quote) (c : Cursor) : Except Cursor Cursor :=
  match segmentAhead quote c with
  | .ok stop => .ok stop
  | .error stop =>
    if c.pos < 0 && 0 ≤ stop.pos then segmentAhead quote stop else .error stop

/-- Plain text up to the quotation mark or the next interpolation. -/
def segment (quote : Quote) : Rule Text := fun c =>
  match segmentStop quote c with
  | .ok stop => .matched (c.slice stop.pos) stop
  | .error stop => .failed stop.clamped ("closing " ++ String.ofList quote.chars) "string"

theorem segmentStop_eq {quote : Quote} {c : Cursor} (h : 0 ≤ c.pos) :
    segmentStop quote c = segmentAhead quote c := by
  have hneg : ¬ c.pos < 0 := by omega
  unfold segmentStop
  cases segmentAhead quote c <;> simp [hneg]

theorem segment_eq {quote : Quote} {c : Cursor} (h : 0 ≤ c.pos) :
    segment quote c =
      match segmentEnd quote 0 c.ahead with
      | .ok count => .matched (c.next count) (c.advance count)
      | .error count =>
        .failed (c.advance count).clamped ("closing " ++ String.ofList quote.chars) "string" := by
  rw [segment, segmentStop_eq h, segmentAhead]
  cases segmentEnd quote 0 c.ahead with
  | ok count => simp [Cursor.next]
  | error count => rfl

def interpolation : Rule Interpolation :=
  choice
    [map Interpolation.variable (delimited (literal ['@', '{']) name (literal ['}'])),
      map Interpolation.property (delimited (literal ['$', '{']) name (literal ['}']))]
    (some "interpolation")

/-- The mark at either end of a string. -/
def quoteMark (quote : Quote) : Rule Unit := fun c =>
  if c.startsWith quote.chars then .matched () (c.advance 1) else .missed c "string"

/-- An interpolation and the segment behind it; a miss at the closing mark. -/
def stringPart (quote : Quote) : Rule (Interpolation × Text) := fun c =>
  if c.startsWith quote.chars then .missed c "interpolation"
  else both (cut interpolation "string interpolation") (segment quote) c

/-- All that follows the first segment of a string with interpolations. -/
def stringParts (quote : Quote) : Rule (OneOrMore (Interpolation × Text)) :=
  terminated (many1 (stringPart quote)) (quoteMark quote)

def stringLiteral (quote : Quote) : Rule Value := fun c =>
  (preceded (quoteMark quote) (segment quote) c).bind fun first rest =>
    if rest.startsWith quote.chars then .matched (.string first quote) (rest.advance 1)
    else (stringParts quote rest).map fun parts => .interpolated first parts.toList quote

def quotedString : Rule Value :=
  choice [stringLiteral .double, stringLiteral .single] (some "string")

end LessSyntax.Grammar
