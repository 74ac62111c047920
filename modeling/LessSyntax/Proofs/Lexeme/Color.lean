import LessSyntax.Grammar.Color
import LessSyntax.Proofs.Lexeme.Name

/-!
# Colours in their surroundings

* `color_matched`: what is read as a colour.
* `accepts_color`: a colour where no name goes on behind it.
-/

namespace LessSyntax.Grammar

open Rule

variable {t k : List Char}

/-- The text is what stands behind the `#` of a colour. -/
structure IsHex (t : List Char) : Prop where
  length : t.length ∈ colorLengths
  digits : ∀ c ∈ t, isHexDigit c = true

theorem isHexDigit_boundary : ∀ c ∈ boundaryChars, isHexDigit c = false := apart_of_all rfl

theorem color_matched {c rest : Cursor} {v : Value} (hc : c.Within)
    (h : color c = .matched v rest) :
    ∃ t, c.Reads ['#'] (c.advance 1) ∧ (c.advance 1).Reads t rest ∧ IsHex t ∧
      v = .color ((c.advance 1).next t.length) := by
  have hstarts : c.startsWith ['#'] = true := by
    unfold color at h
    split at h
    · rename_i hstarts
      exact hstarts
    · cases h
  have hfirst := Cursor.Reads.of_startsWith hc hstarts
  have hstart := hfirst.within hc
  unfold color at h
  rw [if_pos hstarts] at h
  dsimp only at h
  rw [Cursor.onward_eq hstart.1] at h
  generalize ht : (c.advance 1).ahead.takeWhile isHexDigit = t at h
  have hdigits : ∀ x ∈ t, isHexDigit x = true := by
    rw [← ht]
    exact List.all_eq_true.mp List.all_takeWhile
  have hsplit : (c.advance 1).ahead = t ++ (c.advance 1).ahead.dropWhile isHexDigit := by
    rw [← ht, List.takeWhile_append_dropWhile]
  split at h
  · rename_i hcolor
    rw [Bool.and_eq_true, List.contains_iff_mem] at hcolor
    cases h
    exact ⟨t, hfirst, hstart.reads hsplit, ⟨hcolor.1, hdigits⟩, rfl⟩
  · cases h

theorem nameGoesOn_take (hk : ∀ x ∈ k.head?, isNameChar x = false) :
    nameGoesOn (k.take 1) = false := by
  cases k with
  | nil => rfl
  | cons c k => exact hk c rfl

theorem isHexDigit_isNameChar {x : Char} (hx : isHexDigit x = true) : isNameChar x = true := by
  rw [isHexDigit, Bool.or_eq_true] at hx
  rcases hx with hx | hx
  · simp [isNameChar, hx]
  · have hall : ∀ y ∈ "abcdefABCDEF".toList, isNameChar y = true :=
      List.all_eq_true.mp rfl
    exact hall x (List.contains_iff_mem.mp hx)

theorem accepts_color (h : IsHex t) (hk : ∀ x ∈ k.head?, isNameChar x = false) :
    color.Accepts ('#' :: t) k fun v => ∃ u, v = .color u ∧ u.chars = t := by
  intro c hc hahead
  have hdigits : ∀ x ∈ k.head?, isHexDigit x = false := fun x hx =>
    Bool.eq_false_iff.mpr fun hdigit =>
      Bool.eq_false_iff.mp (hk x hx) (isHexDigit_isNameChar hdigit)
  have hstarts : c.startsWith ['#'] = true := (Cursor.startsWith_iff (by simp)).mpr ⟨_, hahead⟩
  have hfirst := Cursor.Reads.of_startsWith hc hstarts
  have hstart := hfirst.within hc
  have hbehind : (c.advance 1).ahead = t ++ k := hc.ahead_advance_one hahead
  have hcount : ((c.advance 1).onward.takeWhile isHexDigit).length = t.length := by
    rw [Cursor.onward_eq hstart.1, hbehind,
      takeWhile_append_stop h.digits hdigits]
  have hstop : ((c.advance 1).advance t.length).peek 1 = k.take 1 := by
    show (((c.advance 1).advance t.length).next ((1 : Nat) : Int)).chars = k.take 1
    rw [Cursor.chars_next ((hstart.reads hbehind).within hstart).1, hstart.ahead_advance hbehind]
  have hcond : (colorLengths.contains t.length
      && !nameGoesOn (((c.advance 1).advance t.length).peek 1)) = true := by
    rw [hstop, nameGoesOn_take hk, List.contains_iff_mem.mpr h.length]
    rfl
  refine ⟨.color ((c.advance 1).next t.length), ?_, _, rfl, ?_⟩
  · unfold color
    simp only [if_pos hstarts, hcount, if_pos hcond]
    rw [Cursor.advance_advance, List.length_cons, Nat.add_comm]
  · exact (hstart.reads hbehind).chars_next hstart

theorem color_refuses (h : ∀ c ∈ k.head?, c ≠ '#') : color.Refuses k := by
  intro c _ hahead
  have hstarts : c.startsWith ['#'] = false := startsWith_one_false (hahead ▸ h)
  refine ⟨c, "color", ?_⟩
  unfold color
  rw [hstarts]
  rfl

end LessSyntax.Grammar
