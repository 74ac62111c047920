import LessSyntax.Numeral.Basic
import LessSyntax.Proofs.Lexeme.Number
import Mathlib.Data.List.Induction
import Mathlib.Data.List.TakeDrop
import Mathlib.Data.Nat.Digits.Defs

/-!
# The language of numbers

A number is a sign, digits with or without a fraction, and an exponent; the sign and the exponent
may be missing. The parts are measured one after the other, each as far as it goes, and what is
measured is the longest number that a text begins with: whatever stands behind the digits of a
number cannot be read otherwise, since neither a point nor a mark of an exponent is a digit.

A text of another form may be converted as well: with white space around it, underscores between its
digits, or a point with no digits behind it. But no number of the language is refused for its form.
One without a point and without an exponent is a sign and digits. It stands for the integer that the
digits have in their places, unless there are more of them than may be converted.

* `IsNumber`: the language.
* `IsNumber.le_numberLength`, `isNumber_take`: what is measured is the longest number.
* `number_of_length`: what is read as a number with its unit.
* `Denotes`: the decimal number that a number stands for.
* `IsNumber.integral`, `IsNumber.fractional`: what a number is converted to.
* `number_grammar`: reading a number.
-/

namespace LessSyntax

/-! ## The language -/

namespace Grammar

open Rule

/-- Decimal digits, of whatever script. -/
def IsDigits (ds : List Char) : Prop := ∀ d ∈ ds, Unicode.isDecimal d = true

/-- A sign, or nothing. -/
def IsSign (sign : List Char) : Prop := sign = [] ∨ sign = ['+'] ∨ sign = ['-']

/-- Digits, or a fraction with or without digits before the point. -/
inductive IsMantissa : List Char → Prop
  | whole {ds : List Char} (hne : ds ≠ []) (hds : IsDigits ds) : IsMantissa ds
  | fraction {ds fs : List Char} (hds : IsDigits ds) (hne : fs ≠ []) (hfs : IsDigits fs) :
    IsMantissa (ds ++ '.' :: fs)

/-- A mark and digits, with or without a sign between, or nothing. -/
inductive IsExponent : List Char → Prop
  | absent : IsExponent []
  | present {mark : Char} {sign ds : List Char} (hmark : mark = 'e' ∨ mark = 'E')
    (hsign : IsSign sign) (hne : ds ≠ []) (hds : IsDigits ds) :
    IsExponent (mark :: (sign ++ ds))

inductive IsNumber : List Char → Prop
  | intro {sign mantissa exponent : List Char} (hsign : IsSign sign)
    (hmantissa : IsMantissa mantissa) (hexponent : IsExponent exponent) :
    IsNumber (sign ++ (mantissa ++ exponent))

/-- The text is the unit that stands before another one: a percent sign, or as many letters as
there are. -/
inductive IsUnitBefore (k : List Char) : List Char → Prop
  | percent : IsUnitBefore k ['%']
  | letters {us : List Char} (hus : ∀ u ∈ us, Unicode.isLetter u = true)
    (hstop : ∀ x ∈ k.head?, Unicode.isLetter x = false)
    (hpercent : ∀ x ∈ (us ++ k).head?, x ≠ '%') : IsUnitBefore k us

variable {cs ds sign text k : List Char}

/-! ## No number is longer than what is measured -/

theorem isDecimal_signs : ∀ x ∈ ['+', '-', '.', 'e', 'E'], Unicode.isDecimal x = false :=
  apart_of_all rfl

theorem isDecimal_mark {x : Char} (h : x = 'e' ∨ x = 'E') : Unicode.isDecimal x = false := by
  rcases h with rfl | rfl <;> exact isDecimal_signs _ (by decide)

theorem digitsLength_append_stop (hds : IsDigits ds)
    (hk : ∀ x ∈ k.head?, Unicode.isDecimal x = false) : digitsLength (ds ++ k) = ds.length := by
  rw [digitsLength, takeWhile_append_stop hds hk]

theorem le_digitsLength (hds : IsDigits ds) (k : List Char) :
    ds.length ≤ digitsLength (ds ++ k) := by
  rw [digitsLength, List.takeWhile_append_of_pos hds, List.length_append]
  exact Nat.le_add_right _ _

/-- No sign stands before a text that begins with a digit or a point. -/
theorem signLength_append_stop (hsign : IsSign sign)
    (hk : ∀ x ∈ k.head?, Decimal.isSign x = false) : signLength (sign ++ k) = sign.length := by
  rcases hsign with rfl | rfl | rfl
  · cases k with
    | nil => rfl
    | cons x k =>
      rw [List.nil_append, signLength, hk x rfl]
      rfl
  · rfl
  · rfl

theorem isSign_of_isDecimal {x : Char} (h : Unicode.isDecimal x = true) :
    Decimal.isSign x = false := by
  have hplus : x ≠ '+' := ne_of_class h (isDecimal_signs _ (by decide))
  have hminus : x ≠ '-' := ne_of_class h (isDecimal_signs _ (by decide))
  simp [Decimal.isSign, hplus, hminus]

theorem IsDigits.head (hds : IsDigits ds) (hne : ds ≠ []) :
    ∀ x ∈ (ds ++ k).head?, Decimal.isSign x = false := by
  obtain ⟨d, others, rfl⟩ := List.exists_cons_of_ne_nil hne
  exact head_cons (isSign_of_isDecimal (hds d List.mem_cons_self))

theorem IsMantissa.head (h : IsMantissa text) :
    ∀ x ∈ (text ++ k).head?, Decimal.isSign x = false := by
  cases h with
  | whole hne hds => exact hds.head hne
  | @fraction ds fs hds hne hfs =>
    by_cases hempty : ds = []
    · subst hempty
      exact head_cons rfl
    · rw [List.append_assoc]
      exact hds.head hempty

theorem fractionLength_point (hk : 0 < digitsLength k) :
    fractionLength ('.' :: k) = 1 + digitsLength k := by
  simp [fractionLength, hk]

theorem digitsLength_pos (hne : ds ≠ []) (hds : IsDigits ds) (k : List Char) :
    0 < digitsLength (ds ++ k) :=
  Nat.lt_of_lt_of_le (List.length_pos_iff.mpr hne) (le_digitsLength hds k)

theorem mantissaLength_fraction {fs : List Char} (hds : IsDigits ds) (hne : fs ≠ [])
    (hfs : IsDigits fs) :
    mantissaLength (ds ++ '.' :: (fs ++ k)) = ds.length + (1 + digitsLength (fs ++ k)) := by
  have hpoint : ∀ x ∈ ('.' :: (fs ++ k)).head?, Unicode.isDecimal x = false :=
    head_cons (isDecimal_signs _ (by decide))
  rw [mantissaLength, digitsLength_append_stop hds hpoint, List.drop_left,
    fractionLength_point (digitsLength_pos hne hfs k)]

theorem le_mantissaLength (h : IsMantissa text) (k : List Char) :
    text.length ≤ mantissaLength (text ++ k) := by
  cases h with
  | whole hne hds =>
    have hle := le_digitsLength hds k
    rw [mantissaLength]
    omega
  | @fraction ds fs hds hne hfs =>
    have hle := le_digitsLength hfs k
    rw [List.append_assoc, List.cons_append, mantissaLength_fraction hds hne hfs,
      List.length_append, List.length_cons]
    omega

/-- Where neither a digit nor a point follows, the mantissa ends. -/
theorem mantissaLength_append_stop (h : IsMantissa text)
    (hk : ∀ x ∈ k.head?, Unicode.isDecimal x = false ∧ x ≠ '.') :
    mantissaLength (text ++ k) = text.length := by
  have hdigit : ∀ x ∈ k.head?, Unicode.isDecimal x = false := fun x hx => (hk x hx).1
  cases h with
  | whole hne hds =>
    have hpoint : fractionLength k = 0 := by
      cases k with
      | nil => rfl
      | cons x k =>
        have hx := (hk x rfl).2
        simp [fractionLength, hx]
    rw [mantissaLength, digitsLength_append_stop hds hdigit, List.drop_left, hpoint, Nat.add_zero]
  | @fraction ds fs hds hne hfs =>
    rw [List.append_assoc, List.cons_append, mantissaLength_fraction hds hne hfs,
      digitsLength_append_stop hfs hdigit, List.length_append, List.length_cons]
    omega

theorem le_exponentLength {mark : Char} (hmark : mark = 'e' ∨ mark = 'E') (hsign : IsSign sign)
    (hne : ds ≠ []) (hds : IsDigits ds) :
    1 + (sign.length + ds.length) ≤ exponentLength (mark :: (sign ++ (ds ++ k))) := by
  have hmark' : Decimal.isExponentMark mark = true := by rcases hmark with rfl | rfl <;> rfl
  have hpos := digitsLength_pos hne hds k
  have hle := le_digitsLength hds k
  simp only [exponentLength, signLength_append_stop hsign (hds.head hne), List.drop_left, hmark',
    Bool.true_and, decide_eq_true_eq, hpos, if_true]
  omega

/-- What is measured reaches as far as any number that the text begins with. An exponent is found
only if the mantissa ends before it, and it does, since a mark of an exponent is no digit. -/
theorem IsNumber.le_numberLength (h : IsNumber text) (k : List Char) :
    ∃ count, numberLength? (text ++ k) = some count ∧ text.length ≤ count := by
  obtain @⟨sign, mantissa, exponent, hsign, hmantissa, hexponent⟩ := h
  have hsigned : signLength (sign ++ (mantissa ++ (exponent ++ k))) = sign.length :=
    signLength_append_stop hsign hmantissa.head
  have hle := le_mantissaLength hmantissa (exponent ++ k)
  have hpos : mantissa ≠ [] := by
    rintro rfl
    generalize hnil : ([] : List Char) = text at hmantissa
    cases hmantissa with
    | whole hne _ => exact hne hnil.symm
    | fraction _ _ _ => simp at hnil
  have hlength := List.length_pos_iff.mpr hpos
  have hzero : mantissaLength (mantissa ++ (exponent ++ k)) ≠ 0 := by omega
  simp only [numberLength?, List.append_assoc, hsigned, List.drop_left, hzero, if_false,
    Option.some.injEq, exists_eq_left', List.length_append]
  cases hexponent with
  | absent =>
    rw [List.length_nil]
    omega
  | @present mark sign' ds hmark hsign' hne hds =>
    have hends : mantissaLength (mantissa ++ (mark :: (sign' ++ ds) ++ k)) = mantissa.length := by
      refine mantissaLength_append_stop hmantissa (head_cons ⟨isDecimal_mark hmark, ?_⟩)
      rcases hmark with rfl | rfl <;> decide
    have hle' := le_exponentLength (k := k) hmark hsign' hne hds
    rw [hends, List.drop_left, List.cons_append, List.append_assoc, List.length_cons,
      List.length_append]
    omega

/-! ## What is measured is a number -/

theorem isSign_take (cs : List Char) : IsSign (cs.take (signLength cs)) := by
  cases cs with
  | nil => exact .inl rfl
  | cons c cs =>
    rw [signLength]
    split
    · rename_i hc
      simp only [Decimal.isSign, Bool.or_eq_true, beq_iff_eq] at hc
      rcases hc with rfl | rfl
      · exact .inr (.inl rfl)
      · exact .inr (.inr rfl)
    · exact .inl rfl

theorem isDigits_take (cs : List Char) : IsDigits (cs.take (digitsLength cs)) := by
  rw [digitsLength, ← List.prefix_iff_eq_take.mp (List.takeWhile_prefix _)]
  exact fun d hd => List.all_eq_true.mp List.all_takeWhile d hd

theorem take_digitsLength_ne_nil (h : 0 < digitsLength cs) : cs.take (digitsLength cs) ≠ [] := by
  have hle := digitsLength_le cs
  rw [← List.length_pos_iff, List.length_take]
  omega

theorem isMantissa_take (h : mantissaLength cs ≠ 0) : IsMantissa (cs.take (mantissaLength cs)) := by
  have hds := isDigits_take cs
  rw [mantissaLength, List.take_add]
  rw [mantissaLength] at h
  cases hrest : cs.drop (digitsLength cs) with
  | nil =>
    rw [hrest, fractionLength, Nat.add_zero] at h
    rw [fractionLength, List.take_zero, List.append_nil]
    exact .whole (take_digitsLength_ne_nil (Nat.pos_of_ne_zero h)) hds
  | cons c k =>
    rw [hrest] at h
    by_cases hpoint : (c == '.' && 0 < digitsLength k) = true
    · rw [fractionLength, if_pos hpoint, Nat.add_comm 1, List.take_succ_cons]
      rw [Bool.and_eq_true, beq_iff_eq, decide_eq_true_eq] at hpoint
      obtain ⟨rfl, hpos⟩ := hpoint
      exact .fraction hds (take_digitsLength_ne_nil hpos) (isDigits_take k)
    · rw [fractionLength, if_neg hpoint] at h
      rw [fractionLength, if_neg hpoint, List.take_zero, List.append_nil]
      exact .whole (take_digitsLength_ne_nil (Nat.pos_of_ne_zero h)) hds

theorem isExponent_take (cs : List Char) : IsExponent (cs.take (exponentLength cs)) := by
  cases cs with
  | nil => exact .absent
  | cons c cs =>
    dsimp only [exponentLength]
    split
    · rename_i hmark
      rw [Bool.and_eq_true, decide_eq_true_eq] at hmark
      obtain ⟨hmark, hpos⟩ := hmark
      simp only [Decimal.isExponentMark, Bool.or_eq_true, beq_iff_eq] at hmark
      rw [Nat.add_comm 1, List.take_succ_cons, List.take_add]
      exact .present hmark (isSign_take cs) (take_digitsLength_ne_nil hpos) (isDigits_take _)
    · exact .absent

theorem isNumber_take {count : Nat} (h : numberLength? cs = some count) :
    IsNumber (cs.take count) := by
  dsimp only [numberLength?] at h
  split at h
  · cases h
  · rename_i hzero
    cases h
    rw [List.take_add, List.take_add]
    exact .intro (isSign_take cs) (isMantissa_take hzero) (isExponent_take _)

/-- No number is longer than the one that is measured. -/
theorem longest_of_length {count : Nat} (h : numberLength? cs = some count) (htext : IsNumber text)
    (hbegins : text <+: cs) : text <+: cs.take count := by
  obtain ⟨k, rfl⟩ := hbegins
  obtain ⟨_, hcount, hle⟩ := htext.le_numberLength k
  rw [h] at hcount
  cases hcount
  exact List.prefix_take_iff.mpr ⟨List.prefix_append text k, hle⟩

/-! ## Numbers with their units -/

theorem isUnitBefore_take (cs : List Char) :
    IsUnitBefore (cs.drop (unitLength cs)) (cs.take (unitLength cs)) := by
  cases cs with
  | nil => exact .letters (by simp) (by simp) (by simp)
  | cons c cs =>
    by_cases hc : c = '%'
    · subst hc
      exact .percent
    · have hunit : unitLength (c :: cs) = ((c :: cs).takeWhile Unicode.isLetter).length := by
        rw [unitLength, if_neg (by simpa using hc)]
      rw [hunit, drop_takeWhile_length, ← List.prefix_iff_eq_take.mp (List.takeWhile_prefix _)]
      refine .letters (List.all_eq_true.mp List.all_takeWhile) ?_ ?_
      · intro x hx
        have hstop := List.head?_dropWhile_not Unicode.isLetter (c :: cs)
        rwa [Option.mem_def.mp hx] at hstop
      · rw [List.takeWhile_append_dropWhile]
        exact head_cons hc

theorem unit_reads {c : Cursor} (hc : c.Within) :
    ∃ us rest, c.Reads us rest ∧ IsUnitBefore rest.ahead us ∧
      unit c = .matched (if us = [] then none else some (c.next us.length)) rest := by
  obtain ⟨us, hlength, hreads⟩ := hc.reads_take (unitLength_le c.ahead)
  have hunit := isUnitBefore_take c.ahead
  rw [← hlength] at hunit hreads
  rw [hreads.ahead, List.take_left, List.drop_left] at hunit
  refine ⟨us, _, hreads, hunit, ?_⟩
  unfold unit
  rw [← hlength]
  cases us with
  | nil => rw [List.length_nil, Cursor.advance_zero]; rfl
  | cons u us => rfl

/-- A number that is measured is read with the unit behind it. -/
theorem number_of_length {c : Cursor} (hc : c.Within) {count : Nat}
    (h : numberLength? c.ahead = some count) :
    ∃ us mid rest, c.Reads (c.ahead.take count) mid ∧ mid.Reads us rest ∧
      IsUnitBefore rest.ahead us ∧
      number c = .matched (.number (c.next (c.ahead.take count).length)
        (if us = [] then none else some (mid.next us.length))) rest := by
  obtain ⟨value, rfl, hvalue⟩ := hc.reads_take (numberLength?_bounds h).2
  have htake : c.ahead.take value.length = value := by rw [hvalue.ahead, List.take_left]
  obtain ⟨us, rest, hus, hunit, hmatch⟩ := unit_reads (hvalue.within hc)
  refine ⟨us, _, rest, htake.symm ▸ hvalue, hus, hunit, ?_⟩
  rw [number_eq hc.1, htake]
  have hscan : scan numberLength? "number" c =
      .matched (c.next value.length) (c.advance value.length) := by
    rw [scan, Cursor.onward_eq hc.1, h]
  exact map_matched.mpr ⟨(c.next value.length, _), both_matched.mpr ⟨_, hscan, hmatch⟩, rfl⟩

end Grammar

/-! ## What numbers stand for -/

/-- The natural number that digits stand for in their places. -/
def placeValue (ds : List Char) : Nat := Nat.ofDigits 10 (ds.map Unicode.decimalValue).reverse

theorem digitsValue_eq (ds : List Char) : digitsValue ds = placeValue ds := by
  induction ds using List.reverseRecOn with
  | nil => rfl
  | append_singleton ds d ih =>
    rw [placeValue, List.map_append, List.reverse_append, List.map_singleton,
      List.reverse_singleton, List.singleton_append, Nat.ofDigits_cons, ← placeValue, ← ih,
      digitsValue, List.foldl_append]
    exact Nat.add_comm _ _

/-- The integer that a sign and digits stand for. -/
def signedValue (sign ds : List Char) : Int :=
  if sign = ['-'] then -(placeValue ds : Int) else placeValue ds

open Grammar

/-- The digits of a mantissa before the point and behind it. -/
inductive HasPlaces : List Char → List Char → List Char → Prop
  | whole {ds : List Char} : HasPlaces ds ds []
  | fraction {ds fs : List Char} : HasPlaces (ds ++ '.' :: fs) ds fs

/-- The power of ten that an exponent stands for. -/
inductive HasPower : List Char → Int → Prop
  | absent : HasPower [] 0
  | present {mark : Char} {sign ds : List Char} (hmark : mark = 'e' ∨ mark = 'E')
    (hsign : IsSign sign) (hds : IsDigits ds) :
    HasPower (mark :: (sign ++ ds)) (signedValue sign ds)

/-- The decimal number that a number stands for: its digits without the point, times a power of ten
that is lower by one for each digit behind the point. -/
inductive Denotes : List Char → Decimal → Prop
  | intro {sign mantissa exponent whole places : List Char} {power : Int} (hsign : IsSign sign)
    (hwhole : IsDigits whole) (hfraction : IsDigits places)
    (hplaces : HasPlaces mantissa whole places) (hpower : HasPower exponent power) :
    Denotes (sign ++ (mantissa ++ exponent))
      ⟨decide (sign = ['-']), placeValue (whole ++ places), power - places.length⟩

variable {value sign ds k : List Char}

theorem unsigned_append (hsign : IsSign sign) (hk : ∀ x ∈ k.head?, Decimal.isSign x = false) :
    Decimal.unsigned (sign ++ k) = k := by
  rcases hsign with rfl | rfl | rfl
  · cases k with
    | nil => rfl
    | cons x k => rw [List.nil_append, Decimal.unsigned, hk x rfl, if_neg Bool.false_ne_true]
  · rfl
  · rfl

theorem isNegative_append (hsign : IsSign sign) (hk : ∀ x ∈ k.head?, Decimal.isSign x = false) :
    Decimal.isNegative (sign ++ k) = decide (sign = ['-']) := by
  rcases hsign with rfl | rfl | rfl
  · cases k with
    | nil => rfl
    | cons x k =>
      have hminus : x ≠ '-' := by
        rintro rfl
        exact absurd (hk '-' rfl) (by decide)
      simp [Decimal.isNegative, hminus]
  · simp [Decimal.isNegative]
  · simp [Decimal.isNegative]

theorem signed_append (hsign : IsSign sign) (hk : ∀ x ∈ k.head?, Decimal.isSign x = false)
    (ds : List Char) : Decimal.signed (sign ++ k) ds = signedValue sign ds := by
  simp only [Decimal.signed, signedValue, digitsValue_eq, isNegative_append hsign hk,
    decide_eq_true_eq]

theorem readInt?_append (hsign : IsSign sign) (hne : ds ≠ []) (hds : IsDigits ds) :
    Decimal.readInt? (sign ++ ds) = some (signedValue sign ds) := by
  have hhead : ∀ x ∈ ds.head?, Decimal.isSign x = false := by
    simpa using hds.head (k := []) hne
  have hempty : ds.isEmpty = false := by simpa using hne
  have hall : ds.all Unicode.isDecimal = true := List.all_eq_true.mpr hds
  rw [Decimal.readInt?, unsigned_append hsign hhead, hempty, hall, signed_append hsign hhead]
  rfl

/-! ## Numbers convert -/

theorem Grammar.IsExponent.readExponent? (h : IsExponent value) :
    ∃ power, HasPower value power ∧ Decimal.readExponent? value = some power := by
  cases h with
  | absent => exact ⟨0, .absent, rfl⟩
  | @present mark sign ds hmark hsign hne hds =>
    have hmark' : Decimal.isExponentMark mark = true := by rcases hmark with rfl | rfl <;> rfl
    refine ⟨_, .present hmark hsign hds, ?_⟩
    rw [Decimal.readExponent?, hmark', if_pos rfl, readInt?_append hsign hne hds]

/-- Neither digits nor a fraction go on into an exponent. -/
theorem Grammar.IsExponent.head (h : IsExponent value) :
    ∀ x ∈ value.head?, Unicode.isDecimal x = false ∧ x ≠ '.' := by
  cases h with
  | absent => simp
  | present hmark _ _ _ =>
    refine head_cons ⟨isDecimal_mark hmark, ?_⟩
    rcases hmark with rfl | rfl <;> decide

theorem span_append_stop {isIn : Char → Bool} (hds : ∀ d ∈ ds, isIn d = true)
    (hk : ∀ x ∈ k.head?, isIn x = false) : (ds ++ k).span isIn = (ds, k) := by
  have htake := takeWhile_append_stop hds hk
  have hdrop : (ds ++ k).dropWhile isIn = k := by
    rw [← drop_takeWhile_length, htake, List.drop_left]
  rw [List.span_eq_takeWhile_dropWhile, htake, hdrop]

theorem splitPlaces_of_no_point (hk : ∀ x ∈ k.head?, x ≠ '.') :
    Decimal.splitPlaces k = ([], k) := by
  unfold Decimal.splitPlaces
  split
  · exact absurd rfl (hk '.' rfl)
  · rfl

/-- A number is read as the decimal number that it stands for. -/
theorem Grammar.IsNumber.ofChars? (h : IsNumber value) :
    ∃ d, Denotes value d ∧ Decimal.ofChars? value = some d := by
  obtain @⟨sign, mantissa, exponent, hsign, hmantissa, hexponent⟩ := h
  obtain ⟨power, hpower, hread⟩ := hexponent.readExponent?
  have hends : ∀ x ∈ exponent.head?, Unicode.isDecimal x = false := fun x hx =>
    (hexponent.head x hx).1
  have hnegative := isNegative_append hsign (hmantissa.head (k := exponent))
  rw [Decimal.ofChars?, unsigned_append hsign hmantissa.head, hnegative]
  cases hmantissa with
  | whole hne hds =>
    have hsome : mantissa.isEmpty = false := by simpa using hne
    refine ⟨_, .intro hsign hds (by simp [IsDigits]) .whole hpower, ?_⟩
    simp only [span_append_stop hds hends,
      splitPlaces_of_no_point fun x hx => (hexponent.head x hx).2, hread, hsome, digitsValue_eq]
    rfl
  | @fraction ds fs hds hne hfs =>
    have hsome : fs.isEmpty = false := by simpa using hne
    have hpoint : ∀ x ∈ ('.' :: (fs ++ exponent)).head?, Unicode.isDecimal x = false :=
      head_cons (isDecimal_signs _ (by decide))
    refine ⟨_, .intro hsign hds hfs .fraction hpower, ?_⟩
    rw [List.append_assoc, List.cons_append]
    simp only [span_append_stop hds hpoint, Decimal.splitPlaces, span_append_stop hfs hends,
      hread, hsome, Bool.and_false, digitsValue_eq]
    rfl

/-! ## Nothing else stands in a number -/

theorem isNumeric_of_isDecimal {x : Char} (h : Unicode.isDecimal x = true) :
    isNumeric x = true := by
  simp [isNumeric, h]

theorem Grammar.IsSign.isNumeric (h : IsSign sign) : ∀ x ∈ sign, isNumeric x = true := by
  rcases h with rfl | rfl | rfl <;> simp [Grammar.isNumeric, Decimal.isSign]

theorem Grammar.IsMantissa.isNumeric (h : IsMantissa value) : ∀ x ∈ value, isNumeric x = true := by
  cases h with
  | whole _ hds => exact fun x hx => isNumeric_of_isDecimal (hds x hx)
  | @fraction ds fs hds _ hfs =>
    intro x hx
    rw [List.mem_append, List.mem_cons] at hx
    rcases hx with hx | rfl | hx
    · exact isNumeric_of_isDecimal (hds x hx)
    · rfl
    · exact isNumeric_of_isDecimal (hfs x hx)

theorem Grammar.IsExponent.isNumeric (h : IsExponent value) : ∀ x ∈ value, isNumeric x = true := by
  cases h with
  | absent => simp
  | @present mark sign ds hmark hsign _ hds =>
    intro x hx
    rw [List.mem_cons, List.mem_append] at hx
    rcases hx with rfl | hx | hx
    · rcases hmark with rfl | rfl <;> rfl
    · exact hsign.isNumeric x hx
    · exact isNumeric_of_isDecimal (hds x hx)

theorem Grammar.IsNumber.isNumeric (h : IsNumber value) : ∀ x ∈ value, isNumeric x = true := by
  cases h with
  | intro hsign hmantissa hexponent =>
    intro x hx
    rw [List.mem_append, List.mem_append] at hx
    rcases hx with hx | hx | hx
    · exact hsign.isNumeric x hx
    · exact hmantissa.isNumeric x hx
    · exact hexponent.isNumeric x hx

theorem isSpace_of_isDecimal {x : Char} (h : Unicode.isDecimal x = true) :
    Unicode.isSpace x = false :=
  Unicode.Runs.not_contains_of_apart (by decide) h

theorem isPadding_of_isNumeric {x : Char} (h : isNumeric x = true) :
    Numeral.isPadding x = false := by
  simp only [isNumeric, Decimal.isExponentMark, Decimal.isSign, Bool.or_eq_true, beq_iff_eq] at h
  rcases h with ((h | rfl) | rfl | rfl) | rfl | rfl
  · rw [Numeral.isPadding, isSpace_of_isDecimal h, Bool.false_and]
  all_goals rfl

/-- A number is read as it is: there is nothing to trim at its ends, and no digits are grouped. -/
theorem Grammar.IsNumber.ungrouped? (h : IsNumber value) :
    Numeral.trimmed value = value ∧ Numeral.ungrouped? value = some value := by
  refine ⟨Numeral.trimmed_eq_self fun x hx => isPadding_of_isNumeric (h.isNumeric x hx),
    Numeral.ungrouped?_eq_some fun hmem => ?_⟩
  exact absurd (h.isNumeric '_' hmem) (by decide)

theorem isFractional_iff :
    Numeral.isFractional value = true ↔ ∃ x ∈ value, x ∈ ['.', 'e', 'E'] := by
  simp [Numeral.isFractional, Decimal.isExponentMark]

/-- A number with a point or an exponent stands for the double nearest to its decimal number. -/
theorem Grammar.IsNumber.fractional (h : IsNumber value)
    (hmark : ∃ x ∈ value, x ∈ ['.', 'e', 'E']) : ∃ d, Denotes value d ∧
      Numeral.ofChars value = .ok (.double (Binary64.ofDecimal d)) := by
  obtain ⟨d, hdenotes, hd⟩ := h.ofChars?
  obtain ⟨htrimmed, hungrouped⟩ := h.ungrouped?
  refine ⟨d, hdenotes, ?_⟩
  rw [Numeral.ofChars, if_pos (isFractional_iff.mpr hmark), Numeral.readDouble, htrimmed,
    hungrouped, Option.bind_some, hd]
  rfl

/-- A mark without digits behind it is no exponent, and what it ends is refused. -/
example : Numeral.ofChars ['1', 'e'] = .error (.noDouble ['1', 'e']) := rfl

theorem readInteger_append (hsign : IsSign sign) (hne : ds ≠ []) (hds : IsDigits ds) :
    Numeral.readInteger (sign ++ ds) =
      if 4300 < ds.length then .error (.tooManyDigits ds.length)
      else .ok (signedValue sign ds) := by
  have hnumber : IsNumber (sign ++ ds) := by
    simpa using IsNumber.intro hsign (.whole hne hds) .absent
  have hhead : ∀ x ∈ ds.head?, Decimal.isSign x = false := by simpa using hds.head (k := []) hne
  have hrun : ∀ d ∈ ds, (Unicode.isDecimal d || d == '_') = true := fun d hd => by
    simp [hds d hd]
  have hspan : ds.span (fun c => Unicode.isDecimal c || c == '_') = (ds, []) := by
    have hstop := span_append_stop (k := []) hrun (by simp)
    rwa [List.append_nil] at hstop
  have hunderscore : '_' ∉ ds := fun hmem => absurd (hds '_' hmem) (by decide)
  have hsome : ds.isEmpty = false := by simpa using hne
  simp only [Numeral.readInteger, hnumber.ungrouped?.1, unsigned_append hsign hhead, hspan,
    Numeral.ungrouped?_eq_some hunderscore, signed_append hsign hhead, hsome, List.isEmpty_nil]
  rfl

/-- Any other number is a sign and digits, and stands for their integer. -/
theorem Grammar.IsNumber.integral (h : IsNumber value) (hplain : ∀ x ∈ value, x ∉ ['.', 'e', 'E']) :
    ∃ sign ds, value = sign ++ ds ∧ IsSign sign ∧ ds ≠ [] ∧ IsDigits ds ∧
      Numeral.ofChars value =
        if 4300 < ds.length then .error (.tooManyDigits ds.length)
        else .ok (.integer (signedValue sign ds)) := by
  have hfractional : Numeral.isFractional value = false := by
    rw [Bool.eq_false_iff]
    intro htrue
    obtain ⟨x, hx, hmark⟩ := isFractional_iff.mp htrue
    exact hplain x hx hmark
  obtain @⟨sign, mantissa, exponent, hsign, hmantissa, hexponent⟩ := h
  cases hexponent with
  | @present mark sign' ds hmark _ _ _ =>
    refine absurd ?_ (hplain mark (by simp))
    rcases hmark with rfl | rfl <;> decide
  | absent =>
    cases hmantissa with
    | @fraction ds fs _ _ _ => exact absurd (by decide) (hplain '.' (by simp))
    | whole hne hds =>
      rw [List.append_nil] at hfractional ⊢
      refine ⟨sign, mantissa, rfl, hsign, hne, hds, ?_⟩
      rw [Numeral.ofChars, hfractional, if_neg Bool.false_ne_true, readInteger_append hsign hne hds]
      split <;> rfl

/-! ## Numbers -/

namespace Grammar

open Rule

/-- **Numbers are the longest match, and they always convert.** The rule for numbers matches exactly
where a number of the language stands, and misses anywhere else. The value is the longest number
that stands there, the unit is a percent sign or all the letters behind it, and both are all that is
read. With a point or an exponent the number stands for the double nearest to what it denotes;
otherwise it is a sign and digits, and stands for their integer, unless there are more than 4300 of
them. -/
theorem number_grammar {c : Cursor} (hc : c.Within) :
    ((∃ v rest, number c = .matched v rest) ↔ ∃ text, IsNumber text ∧ text <+: c.ahead) ∧
    ((∀ text, IsNumber text → ¬ text <+: c.ahead) → number c = .missed c "number") ∧
    ∀ v rest, number c = .matched v rest → ∃ value us mid,
      c.Reads value mid ∧ mid.Reads us rest ∧
      v = .number (c.next value.length) (if us = [] then none else some (mid.next us.length)) ∧
      (c.next value.length).chars = value ∧ (mid.next us.length).chars = us ∧
      IsNumber value ∧ (∀ text, IsNumber text → text <+: c.ahead → text <+: value) ∧
      IsUnitBefore rest.ahead us ∧
      ((∃ x ∈ value, x ∈ ['.', 'e', 'E']) → ∃ d, Denotes value d ∧
        Numeral.ofChars value = .ok (.double (Binary64.ofDecimal d))) ∧
      ((∀ x ∈ value, x ∉ ['.', 'e', 'E']) → ∃ sign ds, value = sign ++ ds ∧ IsSign sign ∧
        ds ≠ [] ∧ IsDigits ds ∧
        Numeral.ofChars value =
          if 4300 < ds.length then .error (.tooManyDigits ds.length)
          else .ok (.integer (signedValue sign ds))) := by
  cases hlength : numberLength? c.ahead with
  | none =>
    have hmiss : number c = .missed c "number" := by
      unfold number
      dsimp only
      rw [Cursor.notBeforeStart_eq hc.1, hlength]
    refine ⟨⟨?_, ?_⟩, fun _ => hmiss, ?_⟩
    · rintro ⟨v, rest, h⟩
      rw [hmiss] at h
      cases h
    · rintro ⟨text, htext, k, hk⟩
      obtain ⟨count, hcount, -⟩ := htext.le_numberLength k
      rw [hk, hlength] at hcount
      cases hcount
    · intro v rest h
      rw [hmiss] at h
      cases h
  | some count =>
    obtain ⟨us, mid, rest, hvalue, hus, hunit, hmatch⟩ := number_of_length hc hlength
    have htext := isNumber_take hlength
    refine ⟨⟨fun _ => ⟨_, htext, List.take_prefix count c.ahead⟩, fun _ => ⟨_, rest, hmatch⟩⟩,
      fun hnone => absurd (List.take_prefix count c.ahead) (hnone _ htext), fun v rest' h => ?_⟩
    rw [hmatch] at h
    cases h
    exact ⟨_, us, mid, hvalue, hus, rfl, hvalue.chars_next hc, hus.chars_next (hvalue.within hc),
      htext, fun _ => longest_of_length hlength, hunit, htext.fractional, htext.integral⟩

/-- A mark of an exponent without digits behind it begins the unit, and the digits may be those of
another script. -/
theorem number_before_unit :
    ∃ c rest, c.Within ∧ c.ahead = ['-', '\u0664', '\u0662', 'e', 'm', '!'] ∧
      number c = .matched (.number ⟨['-', '\u0664', '\u0662'], some ⟨0, 3⟩⟩
        (some ⟨['e', 'm'], some ⟨3, 5⟩⟩)) rest ∧
      (∀ text, IsNumber text → text <+: c.ahead → text <+: ['-', '\u0664', '\u0662']) ∧
      Numeral.ofChars ['-', '\u0664', '\u0662'] = .ok (.integer (-42)) := by
  have hc := Cursor.within_ofText ['-', '\u0664', '\u0662', 'e', 'm', '!']
  obtain ⟨rest, hmatch⟩ : ∃ rest, number (.ofText ['-', '\u0664', '\u0662', 'e', 'm', '!']) =
      .matched (.number ⟨['-', '\u0664', '\u0662'], some ⟨0, 3⟩⟩
        (some ⟨['e', 'm'], some ⟨3, 5⟩⟩)) rest := ⟨_, rfl⟩
  obtain ⟨value, us, mid, -, -, hv, hchars, -, -, hlongest, -, -, hinteger⟩ :=
    (number_grammar hc).2.2 _ rest hmatch
  obtain rfl : value = ['-', '\u0664', '\u0662'] := by
    rw [← hchars, ← (Value.number.inj hv).1]
  obtain ⟨sign, ds, hsplit, hsign, -, hds, hvalue⟩ := hinteger (by simp)
  obtain ⟨rfl, rfl⟩ : sign = ['-'] ∧ ds = ['\u0664', '\u0662'] := by
    rcases hsign with rfl | rfl | rfl
    · rw [List.nil_append] at hsplit
      exact absurd (hds '-' (by simp [← hsplit])) (by decide)
    · cases hsplit
    · cases hsplit
      exact ⟨rfl, rfl⟩
  exact ⟨_, rest, hc, rfl, hmatch, hlongest, hvalue⟩

end Grammar

end LessSyntax
