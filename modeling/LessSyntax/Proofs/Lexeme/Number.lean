import LessSyntax.Grammar.Number
import LessSyntax.Proofs.Lexeme.Name

/-!
# Numbers in their surroundings

How far a number reaches depends on what follows it only if it goes on there. So as long as a
measure of a text does not reach into what follows, that may be replaced by anything that no
number goes on with: the end of the text, or a boundary.

* `numberLength?_tail`: what follows a number may be replaced.
* `number_matched`: what is read as a number.
* `accepts_number`: a number and its unit before a boundary.
-/

namespace LessSyntax.Grammar

open Rule

variable {t k l : List Char}

/-! ## What follows a number -/

/-- What a number may consist of. -/
def isNumeric (c : Char) : Bool :=
  Unicode.isDecimal c || c == '.' || Decimal.isExponentMark c || Decimal.isSign c

/-- No number goes on with the text. -/
def NumberStop (k : List Char) : Prop := ∀ c ∈ k.head?, isNumeric c = false

theorem numberStop_nil : NumberStop [] := by simp [NumberStop]

theorem isNumeric_boundary : ∀ c ∈ boundaryChars, isNumeric c = false := apart_of_all rfl

theorem Boundary.numberStop (hk : Boundary k) : NumberStop k := hk.stops isNumeric_boundary

theorem isNumeric_eq_false {c : Char} (h : isNumeric c = false) :
    Unicode.isDecimal c = false ∧ c ≠ '.' ∧ Decimal.isExponentMark c = false ∧
      Decimal.isSign c = false := by
  simpa [isNumeric, and_assoc] using h

theorem NumberStop.digitsLength (hk : NumberStop k) : digitsLength k = 0 := by
  cases k with
  | nil => rfl
  | cons c k =>
    have hc := (isNumeric_eq_false (hk c rfl)).1
    simp [Grammar.digitsLength, hc]

theorem NumberStop.signLength (hk : NumberStop k) : signLength k = 0 := by
  cases k with
  | nil => rfl
  | cons c k =>
    have hc := (isNumeric_eq_false (hk c rfl)).2.2.2
    simp [Grammar.signLength, hc]

theorem NumberStop.fractionLength (hk : NumberStop k) : fractionLength k = 0 := by
  cases k with
  | nil => rfl
  | cons c k =>
    have hc := (isNumeric_eq_false (hk c rfl)).2.1
    simp [Grammar.fractionLength, hc]

theorem NumberStop.exponentLength (hk : NumberStop k) : exponentLength k = 0 := by
  cases k with
  | nil => rfl
  | cons c k =>
    have hc := (isNumeric_eq_false (hk c rfl)).2.2.1
    simp [Grammar.exponentLength, hc]

theorem digitsLength_tail (hl : NumberStop l) (h : digitsLength (t ++ k) ≤ t.length) :
    digitsLength (t ++ l) = digitsLength (t ++ k) := by
  induction t with
  | nil =>
    have hl' := hl.digitsLength
    simp only [List.nil_append, List.length_nil] at h ⊢
    omega
  | cons c t ih =>
    simp only [digitsLength, List.cons_append, List.takeWhile_cons] at h ih ⊢
    split
    · rename_i hc
      rw [if_pos hc] at h
      simp only [List.length_cons] at h ⊢
      rw [ih (by omega)]
    · rfl

theorem fractionLength_tail (hl : NumberStop l) (h : fractionLength (t ++ k) ≤ t.length) :
    fractionLength (t ++ l) = fractionLength (t ++ k) := by
  cases t with
  | nil =>
    have hl' := hl.fractionLength
    simp only [List.nil_append, List.length_nil] at h ⊢
    omega
  | cons c t =>
    simp only [fractionLength, List.cons_append, List.length_cons] at h ⊢
    cases hc : c == '.' with
    | false => rfl
    | true =>
      simp only [hc, Bool.true_and, decide_eq_true_eq] at h ⊢
      have hdigits : digitsLength (t ++ k) ≤ t.length := by
        split at h <;> omega
      rw [digitsLength_tail hl hdigits]

theorem mantissaLength_tail (hl : NumberStop l) (h : mantissaLength (t ++ k) ≤ t.length) :
    mantissaLength (t ++ l) = mantissaLength (t ++ k) := by
  unfold mantissaLength at h ⊢
  have hdigits : digitsLength (t ++ k) ≤ t.length := by omega
  rw [digitsLength_tail hl hdigits]
  rw [List.drop_append_of_le_length hdigits] at h ⊢
  rw [List.drop_append_of_le_length hdigits, fractionLength_tail hl]
  rw [List.length_drop]
  omega

theorem signLength_append (ht : t ≠ []) (k : List Char) : signLength (t ++ k) = signLength t := by
  cases t with
  | nil => exact absurd rfl ht
  | cons c t => rfl

theorem exponentLength_tail (hl : NumberStop l) (h : exponentLength (t ++ k) ≤ t.length) :
    exponentLength (t ++ l) = exponentLength (t ++ k) := by
  cases t with
  | nil =>
    have hl' := hl.exponentLength
    simp only [List.nil_append, List.length_nil] at h ⊢
    omega
  | cons c t =>
    simp only [exponentLength, List.cons_append, List.length_cons] at h ⊢
    cases hc : Decimal.isExponentMark c with
    | false => rfl
    | true =>
      simp only [hc, Bool.true_and, decide_eq_true_eq] at h ⊢
      cases t with
      | nil =>
        -- behind a mark at the end of the text, digits would reach into what follows
        have hk : digitsLength (k.drop (signLength k)) = 0 := by
          simp only [List.nil_append, List.length_nil] at h
          split at h <;> omega
        simp [hl.signLength, hl.digitsLength, hk]
      | cons d t =>
        have hsign : ∀ k, signLength (d :: t ++ k) = signLength (d :: t) :=
          signLength_append (List.cons_ne_nil d t)
        have hle := signLength_le (d :: t)
        simp only [hsign, List.drop_append_of_le_length hle] at h ⊢
        have hdigits : digitsLength ((d :: t).drop (signLength (d :: t)) ++ k)
            ≤ ((d :: t).drop (signLength (d :: t))).length := by
          rw [List.length_drop]
          split at h <;> omega
        rw [digitsLength_tail hl hdigits]

/-- What follows a text may be replaced, unless the number at its start reaches into it. -/
theorem numberLength?_tail (ht : t ≠ []) (hl : NumberStop l)
    (h : ∀ count, numberLength? (t ++ k) = some count → count ≤ t.length) :
    numberLength? (t ++ l) = numberLength? (t ++ k) := by
  have hle := signLength_le t
  unfold numberLength? at h ⊢
  simp only [signLength_append ht, List.drop_append_of_le_length hle] at h ⊢
  generalize hu : t.drop (signLength t) = u at h ⊢
  have hlength : u.length = t.length - signLength t := by rw [← hu, List.length_drop]
  have hmantissa : mantissaLength (u ++ k) ≤ u.length := by
    by_cases hzero : mantissaLength (u ++ k) = 0
    · omega
    · have := h _ (if_neg hzero)
      omega
  rw [mantissaLength_tail hl hmantissa]
  split
  · rfl
  · rename_i hzero
    have hcount := h _ (if_neg hzero)
    rw [List.drop_append_of_le_length hmantissa] at hcount ⊢
    rw [List.drop_append_of_le_length hmantissa, exponentLength_tail hl]
    rw [List.length_drop]
    omega

/-- What follows a number and its unit may be replaced. -/
theorem numberLength?_behind {value us : List Char} (hne : value ≠ []) (hl : NumberStop l)
    (h : numberLength? (value ++ us ++ k) = some value.length) :
    numberLength? (value ++ us ++ l) = some value.length := by
  rw [← h]
  refine numberLength?_tail (by simp [hne]) hl fun count hcount => ?_
  rw [h] at hcount
  cases hcount
  rw [List.length_append]
  exact Nat.le_add_right _ _

/-- No number stands where neither a sign nor a digit nor a point does. -/
theorem numberLength?_none (hk : NumberStop k) : numberLength? k = none := by
  have hzero : mantissaLength k = 0 := by
    simp only [mantissaLength, hk.digitsLength, List.drop_zero, hk.fractionLength]
  simp only [numberLength?, hk.signLength, List.drop_zero, hzero, if_true]

/-! ## Numbers with their units -/

/-- The text is letters or a percent sign; it may be missing. -/
def IsUnit (us : List Char) : Prop := us = ['%'] ∨ ∀ c ∈ us, Unicode.isLetter c = true

/-- The text is a number with a unit behind it. -/
structure NumberText (value unit : List Char) : Prop where
  length : numberLength? (value ++ unit) = some value.length
  unit : IsUnit unit

theorem NumberText.value_ne_nil {value unit : List Char} (h : NumberText value unit) :
    value ≠ [] := by
  rintro rfl
  have := (numberLength?_bounds h.length).1
  simp at this

theorem NumberText.cons {value unit : List Char} (h : NumberText value unit) :
    ∃ x l, value = x :: l ∧ isNumeric x = true := by
  obtain ⟨x, l, rfl⟩ := List.exists_cons_of_ne_nil h.value_ne_nil
  refine ⟨x, l, rfl, ?_⟩
  by_cases hx : isNumeric x = true
  · exact hx
  · have hstop : NumberStop (x :: l ++ unit) := head_cons (Bool.eq_false_iff.mpr hx)
    have hlength := h.length
    rw [numberLength?_none hstop] at hlength
    cases hlength

theorem isLetter_percent : Unicode.isLetter '%' = false := by decide

theorem isLetter_boundary : ∀ c ∈ boundaryChars, Unicode.isLetter c = false := apart_of_all rfl

theorem percent_notMem_boundary : ∀ c ∈ boundaryChars, (c == '%') = false := apart_of_all rfl

theorem isUnit_take (cs : List Char) : IsUnit (cs.take (unitLength cs)) := by
  cases cs with
  | nil => exact Or.inr (by simp)
  | cons c cs =>
    cases hc : c == '%' with
    | true =>
      left
      rw [unitLength, hc, if_pos rfl, List.take_succ_cons, List.take_zero, beq_iff_eq.mp hc]
    | false =>
      right
      have hunit : unitLength (c :: cs) = ((c :: cs).takeWhile Unicode.isLetter).length := by
        rw [unitLength, hc, if_neg Bool.false_ne_true]
      rw [hunit, ← List.prefix_iff_eq_take.mp (List.takeWhile_prefix _)]
      exact fun d hd => List.all_eq_true.mp List.all_takeWhile d hd

theorem unitLength_append {unit : List Char} (h : IsUnit unit) (hk : Boundary k) :
    unitLength (unit ++ k) = unit.length := by
  rcases h with rfl | h
  · rfl
  · have hletters : (unit ++ k).takeWhile Unicode.isLetter = unit :=
      takeWhile_append_stop h (hk.stops isLetter_boundary)
    cases hunit : unit ++ k with
    | nil =>
      rw [(List.append_eq_nil_iff.mp hunit).1]
      rfl
    | cons c cs =>
      have hc : (c == '%') = false := by
        cases unit with
        | nil =>
          rw [List.nil_append] at hunit
          exact hk.stops percent_notMem_boundary c (by rw [hunit]; rfl)
        | cons d unit =>
          have hd := h d List.mem_cons_self
          rw [← (List.cons.inj hunit).1, beq_eq_false_iff_ne]
          exact ne_of_class hd isLetter_percent
      rw [unitLength, hc, if_neg Bool.false_ne_true, ← hunit, hletters]

/-- Without letters or a percent sign there is no unit. -/
def IsUnitText (us : List Char) (found : Option Text) : Prop :=
  found.map Text.chars = if us = [] then none else some us

theorem unit_matched {c rest : Cursor} {found : Option Text} (hc : c.Within)
    (h : unit c = .matched found rest) :
    ∃ us, c.Reads us rest ∧ IsUnit us ∧
      found = if us = [] then none else some (c.next us.length) := by
  obtain ⟨us, hlength, hreads⟩ := hc.reads_take (unitLength_le c.ahead)
  have hunit : IsUnit us := by
    have htake := isUnit_take c.ahead
    rw [hreads.ahead, ← hreads.ahead, ← hlength, hreads.ahead, List.take_left] at htake
    exact htake
  unfold unit at h
  rw [← hlength] at h hreads
  cases us with
  | nil =>
    cases h
    exact ⟨[], .refl c, hunit, rfl⟩
  | cons u us =>
    cases h
    exact ⟨u :: us, hreads, hunit, (if_neg (List.cons_ne_nil u us)).symm⟩

theorem accepts_unit {us : List Char} (h : IsUnit us) (hk : Boundary k) :
    unit.Accepts us k (IsUnitText us) := by
  intro c hc hahead
  have hlength : unitLength c.ahead = us.length := by rw [hahead, unitLength_append h hk]
  unfold unit
  rw [hlength]
  cases us with
  | nil =>
    rw [List.length_nil, Cursor.advance_zero]
    exact ⟨none, rfl, rfl⟩
  | cons u us => exact ⟨_, rfl, congrArg some ((hc.reads hahead).chars_next hc)⟩

/-- A number is read as its value and, if there is one, its unit. -/
inductive ReadsNumber (c : Cursor) : Value → Cursor → Prop
  | plain {value : List Char} {rest : Cursor} (hvalue : c.Reads value rest)
    (htext : NumberText value []) : ReadsNumber c (.number (c.next value.length) none) rest
  | withUnit {value unit : List Char} {mid rest : Cursor} (hvalue : c.Reads value mid)
    (hunit : mid.Reads unit rest) (hne : unit ≠ []) (htext : NumberText value unit) :
    ReadsNumber c (.number (c.next value.length) (some (mid.next unit.length))) rest

theorem ReadsNumber.reaches {c rest : Cursor} {v : Value} (h : ReadsNumber c v rest) :
    c.Reaches rest := by
  cases h with
  | plain hvalue _ => exact ⟨_, hvalue⟩
  | withUnit hvalue hunit _ _ => exact ⟨_, hvalue.trans hunit⟩

theorem number_matched {c rest : Cursor} {v : Value} (hc : c.Within)
    (h : number c = .matched v rest) : ReadsNumber c v rest := by
  rw [number_eq hc.1] at h
  obtain ⟨⟨t, found⟩, hboth, rfl⟩ := map_matched.mp h
  obtain ⟨mid, hscan, hunit⟩ := both_matched.mp hboth
  obtain ⟨count, hcount, rfl, rfl⟩ := scan_matched hc hscan
  obtain ⟨hpos, hle⟩ := numberLength?_bounds hcount
  obtain ⟨value, rfl, hvalue⟩ := hc.reads_take hle
  obtain ⟨us, hus, hisunit, rfl⟩ := unit_matched (hvalue.within hc) hunit
  have htext : NumberText value us := by
    refine ⟨?_, hisunit⟩
    rw [(hvalue.trans hus).ahead] at hcount
    have hstays := numberLength?_behind (List.length_pos_iff.mp hpos) numberStop_nil hcount
    rwa [List.append_nil] at hstays
  cases us with
  | nil =>
    rw [hus.rest, List.length_nil, Cursor.advance_zero]
    exact .plain hvalue htext
  | cons u us => exact .withUnit hvalue hus (List.cons_ne_nil u us) htext

/-- The value and the unit of a number have the given characters. -/
def IsNumberValue (value unit : List Char) (v : Value) : Prop :=
  ∃ t u, v = .number t u ∧ t.chars = value ∧ IsUnitText unit u

theorem accepts_number {value unit : List Char} (h : NumberText value unit) (hk : Boundary k) :
    number.Accepts (value ++ unit) k (IsNumberValue value unit) := by
  have hlength : numberLength? (value ++ (unit ++ k)) = some value.length := by
    rw [← List.append_assoc]
    refine numberLength?_behind (k := []) h.value_ne_nil hk.numberStop ?_
    rw [List.append_nil, h.length]
  intro c hc hahead
  rw [number_eq hc.1]
  exact accepts_map (accepts_mono (accepts_both (accepts_scan hlength) (accepts_unit h.unit hk))
    fun v hv => ⟨v.1, v.2, rfl, hv.1, hv.2⟩) c hc hahead

theorem unit_matches (c : Cursor) : ∃ found rest, unit c = .matched found rest := by
  unfold unit
  split
  · exact ⟨none, c, rfl⟩
  · exact ⟨_, _, rfl⟩

theorem numberLength?_of_misses {c : Cursor} (hc : c.Within) (h : MissesAt number c) :
    numberLength? c.ahead = none := by
  obtain ⟨place, expected, hmiss⟩ := h
  rw [number_eq hc.1] at hmiss
  cases hcount : numberLength? c.ahead with
  | none => rfl
  | some count =>
    obtain ⟨found, rest, hunit⟩ := unit_matches (c.advance count)
    simp only [Rule.map, Outcome.map, both, scan, Cursor.onward_eq hc.1, hcount, Outcome.bind,
      hunit] at hmiss
    cases hmiss

theorem number_refuses (hk : numberLength? k = none) : number.Refuses k := by
  intro c hc hahead
  unfold MissesAt
  rw [number_eq hc.1]
  exact map_refuses (both_refuses_first (scan_refuses hk)) c hc hahead

end LessSyntax.Grammar
