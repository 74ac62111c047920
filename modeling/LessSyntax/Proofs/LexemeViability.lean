import LessSyntax.Proofs.TokenViability

/-!
# Lexemes that can be completed

Numbers and colours stop only where they begin, and end before whatever may stand where their text
ended. An address is closed by a parenthesis, so that any text may follow it; where it is not
closed, it can be.

* `numberLength?_replaced`: another text may follow, unless the number reaches into what follows.
* `number_lexeme`, `color_lexeme`: lexemes that end before what cannot go on.
* `url_lexeme`: addresses.
-/

namespace LessSyntax.Grammar

open Rule

variable {deeper : Prop} {lineComments strict : Bool} {G : Cursor → Prop} {t k l cs : List Char}

/-! ## Measures before another text -/

theorem takeWhile_nil_of_head {isIn : Char → Bool} (h : ∀ x ∈ l.head?, isIn x = false) :
    l.takeWhile isIn = [] := by
  cases l with
  | nil => rfl
  | cons x l => rw [List.takeWhile_cons, h x rfl, if_neg Bool.false_ne_true]

theorem head_of_takeWhile_nil {isIn : Char → Bool} (h : (l.takeWhile isIn).length ≤ 0) :
    ∀ x ∈ l.head?, isIn x = false := by
  cases l with
  | nil => exact nofun
  | cons y l =>
    refine head_cons (Bool.eq_false_iff.mpr fun hin => ?_)
    rw [List.takeWhile_cons, if_pos hin] at h
    simp at h

theorem takeWhile_replaced {isIn : Char → Bool} (hnewline : isIn '\n' = false)
    (hl : Replaces strict k l) (h : ((t ++ k).takeWhile isIn).length ≤ t.length) :
    (t ++ l).takeWhile isIn = (t ++ k).takeWhile isIn := by
  induction t with
  | nil =>
    have hk := head_of_takeWhile_nil (l := k) (by simpa using h)
    rw [List.nil_append, List.nil_append, takeWhile_nil_of_head hk,
      takeWhile_nil_of_head (hl.stops hnewline hk)]
  | cons x t ih =>
    rw [List.cons_append, List.takeWhile_cons] at h
    rw [List.cons_append, List.cons_append, List.takeWhile_cons, List.takeWhile_cons]
    split
    · rename_i hx
      rw [if_pos hx, List.length_cons, List.length_cons] at h
      rw [ih (by omega)]
    · rfl

theorem digitsLength_replaced (hl : Replaces strict k l) (h : digitsLength (t ++ k) ≤ t.length) :
    digitsLength (t ++ l) = digitsLength (t ++ k) :=
  congrArg List.length (takeWhile_replaced (by decide) hl h)

/-- What stands behind a sign or a point begins as before. -/
theorem replaces_behind {x : Char} (hx : x ∈ signs) (h : Replaces true (x :: k) (x :: l)) :
    Replaces false k l := by
  rcases h with h | ⟨y, m, n, hk, hl, h⟩
  · rw [h x rfl] at hx
    exact absurd hx (by decide)
  · cases hk
    cases hl
    rcases h rfl hx with h | ⟨y, m, n, rfl, rfl⟩
    · exact .inl h
    · exact .inr ⟨y, m, n, rfl, rfl, nofun⟩

/-- Another text begins with a newline or with the same character. -/
theorem Replaces.cases_head (h : Replaces strict k l) :
    AtBreak l ∨ ∃ x m n, k = x :: m ∧ l = x :: n := by
  rcases h with h | ⟨x, m, n, hk, hl, -⟩
  · exact .inl h
  · exact .inr ⟨x, m, n, hk, hl⟩

theorem numberStop_of_atBreak (h : AtBreak l) : NumberStop l := by
  intro x hx
  rw [h x hx]
  decide

theorem fractionLength_replaced (hl : Replaces true k l)
    (h : fractionLength (t ++ k) ≤ t.length) :
    fractionLength (t ++ l) = fractionLength (t ++ k) := by
  cases t with
  | nil =>
    rcases hl.cases_head with hbreak | ⟨x, m, n, rfl, rfl⟩
    · have hzero := (numberStop_of_atBreak hbreak).fractionLength
      simp only [List.nil_append, List.length_nil] at h ⊢
      omega
    · simp only [fractionLength, List.nil_append, List.length_nil] at h ⊢
      cases hx : x == '.' with
      | false => rfl
      | true =>
        have hsign : x ∈ signs := by
          rw [beq_iff_eq.mp hx]
          decide
        simp only [hx, Bool.true_and, decide_eq_true_eq] at h ⊢
        have hdigits : digitsLength ([] ++ m) ≤ 0 := by
          rw [List.nil_append]
          split at h <;> omega
        have hsame := digitsLength_replaced (t := []) (replaces_behind hsign hl) hdigits
        rw [List.nil_append, List.nil_append] at hsame
        rw [hsame]
  | cons c t =>
    simp only [fractionLength, List.cons_append, List.length_cons] at h ⊢
    cases hc : c == '.' with
    | false => rfl
    | true =>
      simp only [hc, Bool.true_and, decide_eq_true_eq] at h ⊢
      have hdigits : digitsLength (t ++ k) ≤ t.length := by
        split at h <;> omega
      rw [digitsLength_replaced hl hdigits]

theorem mantissaLength_replaced (hl : Replaces true k l)
    (h : mantissaLength (t ++ k) ≤ t.length) :
    mantissaLength (t ++ l) = mantissaLength (t ++ k) := by
  unfold mantissaLength at h ⊢
  have hdigits : digitsLength (t ++ k) ≤ t.length := by omega
  rw [digitsLength_replaced hl hdigits]
  rw [List.drop_append_of_le_length hdigits] at h ⊢
  rw [List.drop_append_of_le_length hdigits, fractionLength_replaced hl]
  rw [List.length_drop]
  omega

/-- Behind a mark, digits with a sign before them are missing as before. -/
theorem signedDigits_replaced (hl : Replaces true k l)
    (h : digitsLength (k.drop (signLength k)) = 0) :
    digitsLength (l.drop (signLength l)) = 0 := by
  rcases hl.cases_head with hbreak | ⟨x, m, n, rfl, rfl⟩
  · have hstop := numberStop_of_atBreak hbreak
    rw [hstop.signLength]
    exact hstop.digitsLength
  · cases hx : Decimal.isSign x with
    | false =>
      simp only [signLength, hx, Bool.false_eq_true, if_false, List.drop_zero] at h ⊢
      have hsame := digitsLength_replaced (t := []) hl (by simpa using Nat.le_of_eq h)
      exact hsame.trans h
    | true =>
      have hsign : x ∈ signs := by
        simp only [Decimal.isSign, Bool.or_eq_true, beq_iff_eq] at hx
        rcases hx with rfl | rfl <;> decide
      simp only [signLength, hx, if_true, List.drop_succ_cons, List.drop_zero] at h ⊢
      have hsame := digitsLength_replaced (t := []) (replaces_behind hsign hl)
        (by simpa using Nat.le_of_eq h)
      exact hsame.trans h

theorem exponentLength_replaced (hl : Replaces true k l)
    (hmark : ∀ x ∈ k.head?, Decimal.isExponentMark x = false)
    (h : exponentLength (t ++ k) ≤ t.length) :
    exponentLength (t ++ l) = exponentLength (t ++ k) := by
  cases t with
  | nil =>
    have hzero : ∀ {m : List Char}, (∀ x ∈ m.head?, Decimal.isExponentMark x = false) →
        exponentLength m = 0 := by
      intro m hm
      cases m with
      | nil => rfl
      | cons x m => simp [exponentLength, hm x rfl]
    rw [List.nil_append, List.nil_append, hzero hmark, hzero (hl.stops (by decide) hmark)]
  | cons c t =>
    simp only [exponentLength, List.cons_append, List.length_cons] at h ⊢
    cases hc : Decimal.isExponentMark c with
    | false => rfl
    | true =>
      simp only [hc, Bool.true_and, decide_eq_true_eq] at h ⊢
      cases t with
      | nil =>
        -- digits behind a mark at the end would reach into what follows
        have hk : digitsLength (k.drop (signLength k)) = 0 := by
          simp only [List.nil_append, List.length_nil] at h
          split at h <;> omega
        simp [hk, signedDigits_replaced hl hk]
      | cons d t =>
        have hsign : ∀ k, signLength (d :: t ++ k) = signLength (d :: t) :=
          signLength_append (List.cons_ne_nil d t)
        have hle := signLength_le (d :: t)
        simp only [hsign, List.drop_append_of_le_length hle] at h ⊢
        have hdigits : digitsLength ((d :: t).drop (signLength (d :: t)) ++ k)
            ≤ ((d :: t).drop (signLength (d :: t))).length := by
          rw [List.length_drop]
          split at h <;> omega
        rw [digitsLength_replaced hl hdigits]

/-- Another text may follow, unless the number reaches into what follows. -/
theorem numberLength?_replaced (ht : t ≠ []) (hl : Replaces true k l)
    (hmark : ∀ x ∈ k.head?, Decimal.isExponentMark x = false)
    (h : ∀ count, numberLength? (t ++ k) = some count → count ≤ t.length) :
    numberLength? (t ++ l) = numberLength? (t ++ k) := by
  have hle := signLength_le t
  unfold numberLength? at h ⊢
  simp only [signLength_append ht, List.drop_append_of_le_length hle] at h ⊢
  generalize hu : t.drop (signLength t) = u at h ⊢
  have hlength : u.length = t.length - signLength t := by rw [← hu, List.length_drop]
  have hmantissa : mantissaLength (u ++ k) ≤ u.length := by
    by_cases hzero : mantissaLength (u ++ k) = 0
    · omega
    · have := h _ (if_neg hzero)
      omega
  rw [mantissaLength_replaced hl hmantissa]
  split
  · rfl
  · rename_i hzero
    have hcount := h _ (if_neg hzero)
    rw [List.drop_append_of_le_length hmantissa] at hcount ⊢
    rw [List.drop_append_of_le_length hmantissa, exponentLength_replaced hl hmark]
    rw [List.length_drop]
    omega

/-! ## Numbers -/

section

variable {us value : List Char} (hletters : ∀ x ∈ us, Unicode.isLetter x = true)
include hletters

theorem unitLength_cons_letters (hne : us ≠ []) (l : List Char) :
    unitLength (us ++ l) = us.length + (l.takeWhile Unicode.isLetter).length := by
  obtain ⟨u, us, rfl⟩ := List.exists_cons_of_ne_nil hne
  have hu : (u == '%') = false :=
    beq_eq_false_iff_ne.mpr (ne_of_class (hletters u List.mem_cons_self) isLetter_percent)
  rw [List.cons_append, unitLength, hu, if_neg Bool.false_ne_true, ← List.cons_append,
    List.takeWhile_append_of_pos hletters, List.length_append]

/-- Letters are the whole unit where no further letter follows, nor a percent sign without any. -/
theorem unitLength_letters_iff : unitLength (us ++ l) = us.length ↔
    (∀ x ∈ l.head?, Unicode.isLetter x = false) ∧
      (us = [] → ∀ x ∈ l.head?, (x == '%') = false) := by
  by_cases hus : us = []
  · subst hus
    cases l with
    | nil => simp [unitLength]
    | cons x l =>
      cases hx : x == '%' with
      | true => simp [unitLength, beq_iff_eq.mp hx]
      | false =>
        have hne : x ≠ '%' := beq_eq_false_iff_ne.mp hx
        cases hletter : Unicode.isLetter x <;> simp [unitLength, hne, hletter]
  · rw [unitLength_cons_letters hletters hus]
    constructor
    · intro h
      exact ⟨head_of_takeWhile_nil (by omega), fun hnil => absurd hnil hus⟩
    · rintro ⟨h, -⟩
      rw [takeWhile_nil_of_head h]
      rfl

end

theorem consumes_number {value us : List Char}
    (hvalue : numberLength? (value ++ (us ++ l)) = some value.length)
    (hunit : unitLength (us ++ l) = us.length) : number.Consumes (value ++ us) l := by
  have hunits : unit.Consumes us l := by
    intro c hc hahead
    unfold unit
    rw [hahead, hunit]
    cases us with
    | nil =>
      rw [List.length_nil, Cursor.advance_zero]
      exact ⟨none, rfl, trivial⟩
    | cons u us => exact ⟨_, rfl, trivial⟩
  intro c hc hahead
  rw [number_eq hc.1]
  exact accepts_map (accepts_mono (accepts_both (accepts_scan hvalue) hunits)
    fun _ _ => trivial) c hc hahead

theorem isExponentMark_of_isLetter {x : Char} (hx : Unicode.isLetter x = false) :
    Decimal.isExponentMark x = false := by
  rw [Bool.eq_false_iff]
  intro hmark
  simp only [Decimal.isExponentMark, Bool.or_eq_true, beq_iff_eq] at hmark
  rcases hmark with rfl | rfl <;> exact absurd hx (by decide)

/-- A number is read as a value and a unit, both as long as they can be. -/
theorem number_parts {c rest : Cursor} {v : Value} (hc : c.Within)
    (h : number c = .matched v rest) :
    ∃ value us, value ≠ [] ∧ c.Reads (value ++ us) rest ∧ IsUnit us ∧
      numberLength? (value ++ (us ++ rest.ahead)) = some value.length ∧
      unitLength (us ++ rest.ahead) = us.length := by
  rw [number_eq hc.1] at h
  obtain ⟨⟨t, found⟩, hboth, -⟩ := map_matched.mp h
  obtain ⟨mid, hscan, hunit⟩ := both_matched.mp hboth
  obtain ⟨count, hcount, -, rfl⟩ := scan_matched hc hscan
  obtain ⟨hpos, hle⟩ := numberLength?_bounds hcount
  obtain ⟨value, rfl, hvalue⟩ := hc.reads_take hle
  obtain ⟨us, hus, hunits⟩ :=
    (hvalue.within hc).reads_take (unitLength_le (c.advance value.length).ahead)
  have hrest : rest = (c.advance value.length).advance us.length := by
    rw [hus]
    unfold unit at hunit
    split at hunit
    · rename_i hzero
      cases hunit
      rw [hzero, Cursor.advance_zero]
    · cases hunit
      rfl
  rw [← hus, ← hrest] at hunits
  rw [hunits.ahead] at hus
  have hreads := hvalue.trans hunits
  refine ⟨value, us, List.length_pos_iff.mp hpos, hreads, ?_, ?_, hus.symm⟩
  · have htake := isUnit_take (us ++ rest.ahead)
    rwa [← hus, List.take_left] at htake
  · rw [← List.append_assoc, ← hreads.ahead]
    exact hcount

/-- A number with its unit is read before what may stand where its text ended. -/
theorem consumes_number_replaced {value us : List Char} (hne : value ≠ []) (his : IsUnit us)
    (hcount : numberLength? (value ++ (us ++ k)) = some value.length)
    (hunit : unitLength (us ++ k) = us.length) (hl : Replaces true k l) :
    number.Consumes (value ++ us) l := by
  rcases his with rfl | hletters
  · -- a percent sign ends the number, whatever follows
    have hpercent : NumberStop ('%' :: l) := head_cons (by decide)
    have hsame := numberLength?_tail hne hpercent (k := ['%'] ++ k) fun count h => by
      rw [hcount] at h
      cases h
      exact Nat.le_refl _
    exact consumes_number (hsame.trans hcount) rfl
  · obtain ⟨hends, hpercent⟩ := (unitLength_letters_iff hletters).mp hunit
    refine consumes_number ?_ ((unitLength_letters_iff hletters).mpr
      ⟨hl.stops (by decide) hends, fun hnil => by
        have hstop : ∀ x ∈ k.head?, (fun x => x == '%') x = false := hpercent hnil
        exact hl.stops (by decide) hstop⟩)
    rw [← List.append_assoc] at hcount ⊢
    have hsame := numberLength?_replaced (List.append_ne_nil_of_left_ne_nil hne us) hl
      (fun x hx => isExponentMark_of_isLetter (hends x hx)) fun count h => by
        rw [hcount] at h
        cases h
        rw [List.length_append]
        exact Nat.le_add_right _ _
    exact hsame.trans hcount

theorem number_stops {c place : Cursor} (hc : c.Within) (h : (number c).StopsAt place) :
    place = c := by
  rw [number_eq hc.1] at h
  rcases Outcome.stopsAt_bind (Outcome.stopsAt_map h) with h | ⟨t, mid, -, h⟩
  · exact scan_stops h
  · obtain ⟨found, rest, hunit⟩ := unit_matches mid
    rw [hunit] at h
    cases h

/-- No trivia begins with a character of a class that holds no boundary. -/
theorem free_of_class {isIn : Char → Bool} (hclass : ∀ x ∈ boundaryChars, isIn x = false) {x : Char}
    (hx : isIn x = true) (l : List Char) : Free lineComments (isIn · = true) (x :: l) := by
  have hboundary := notMem_of_apart hclass hx
  refine free_cons (Bool.eq_false_iff.mpr fun hblank => ?_) ?_ hx
  · exact hboundary (isBlank_mem_boundaryChars hblank)
  · rintro rfl
    exact hboundary (by decide)

theorem number_lexeme :
    Lexeme deeper lineComments strict G (Replaces true) (isNumeric · = true) number number where
  stays {c v rest} hc _ hmatch := by
    obtain ⟨value, us, hne, hreads, his, hcount, hunit⟩ := number_parts hc hmatch
    have hne' : value ++ us ≠ [] := List.append_ne_nil_of_left_ne_nil hne us
    refine ⟨value ++ us, hne', hreads, fun l hl => ⟨?_, ?_, ?_⟩⟩
    · exact hreads.ahead ▸ hl.append_of_ne_nil hne' strict
    · obtain ⟨x, m, rfl⟩ := List.exists_cons_of_ne_nil hne
      refine free_of_class isNumeric_boundary ?_ _
      rw [← Bool.not_eq_false]
      intro hx
      have hnone : numberLength? (x :: m ++ (us ++ rest.ahead)) = none :=
        numberLength?_none (head_cons hx)
      rw [hnone] at hcount
      cases hcount
    · exact consumes_number_replaced hne his hcount hunit hl
  resumes hdeeper hc _ hstop := .inl (.of_eq (number_stops hc hstop))
  fills _ := ⟨['1'], fun l hl => ⟨by simp, free_of_class isNumeric_boundary (by decide) l,
    have hone : numberLength? (['1'] ++ ([] ++ [])) = some ['1'].length := by decide
    consumes_number_replaced (by simp) (.inr (by simp)) hone rfl hl⟩⟩

/-! ## Colours -/

theorem color_stops {c place : Cursor} (h : (color c).StopsAt place) : place = c := by
  unfold color at h
  split at h
  · dsimp only at h
    split at h <;> cases h
    rfl
  · cases h
    rfl

/-- Behind a colour no name goes on. -/
theorem color_ends {c rest : Cursor} {v : Value} (hc : c.Within) (h : color c = .matched v rest) :
    ∀ x ∈ rest.ahead.head?, isNameChar x = false := by
  obtain ⟨t, hmark, hreads, -, -⟩ := color_matched hc h
  have hrest := hreads.within (hmark.within hc)
  have hends : nameGoesOn (rest.peek 1) = false := by
    unfold color at h
    split at h
    · dsimp only at h
      split at h
      · rename_i hcolor
        cases h
        simpa using (Bool.and_eq_true_iff.mp hcolor).2
      · cases h
    · cases h
  rw [show rest.peek 1 = rest.ahead.take 1 from peek_of_within hrest 1] at hends
  cases hahead : rest.ahead with
  | nil => exact nofun
  | cons x m =>
    rw [hahead] at hends
    exact head_cons hends

theorem color_lexeme :
    Lexeme deeper lineComments strict G (Replaces false) (· = '#') color color where
  stays hc _ hmatch := by
    obtain ⟨t, hmark, hreads, his, -⟩ := color_matched hc hmatch
    have hends := color_ends hc hmatch
    refine ⟨'#' :: t, by simp, hmark.trans hreads, fun l hl => ⟨?_, ?_, ?_⟩⟩
    · exact (hmark.trans hreads).ahead ▸ hl.append_of_ne_nil (by simp) strict
    · exact free_cons (by decide) (by decide) rfl
    · exact accepts_mono (accepts_color his (hl.stops (by decide) hends)) fun _ _ => trivial
  resumes hdeeper _ _ hstop := .inl (.of_eq (color_stops hstop))
  fills _ := ⟨"#000".toList, fun l hl => ⟨by simp, free_cons (by decide) (by decide) rfl,
    accepts_mono (accepts_color (t := "000".toList) ⟨by decide, List.all_eq_true.mp rfl⟩
      (replaces_false_nil_stops hl)) fun _ _ => trivial⟩⟩

/-! ## Addresses -/

/-- The text is an address up to the parenthesis that closes it. -/
def OpensAddress (cs : List Char) : Prop :=
  ∃ callee before found, cs = callee ++ '(' :: (before ++ found) ∧ CallsUrl callee ∧
    (∀ b ∈ before, isBlank b = true) ∧ (∀ x ∈ found, isAddressChar x = true) ∧
      ∀ x ∈ found.head?, isBlank x = false

theorem OpensAddress.consumes (h : OpensAddress cs) (l : List Char) :
    url.Consumes (cs ++ [')']) l := by
  obtain ⟨callee, before, found, rfl, hcallee, hblank, hall, hhead⟩ := h
  have haddress := accepts_address (k := l) hcallee hblank hall hhead
  simp only [List.append_assoc, List.cons_append]
  exact accepts_mono haddress fun _ _ => trivial

theorem CallsUrl.head (h : CallsUrl cs) : ∃ x m, cs = x :: m ∧ x ∈ ['u', 'U'] := by
  have hmap : cs.map Char.toLower = ['u', 'r', 'l'] := beq_iff_eq.mp h
  cases cs with
  | nil => cases hmap
  | cons x m =>
    refine ⟨x, m, rfl, ?_⟩
    rcases toLower_eq (List.cons.inj hmap).1 with rfl | ⟨-, -, hcode⟩
    · exact List.mem_cons_self
    · have hcapital : x = 'U' := by
        apply Char.toNat_inj.mp
        simp only [Char.reduceToNat] at hcode ⊢
        omega
      rw [hcapital]
      exact List.mem_cons_of_mem _ List.mem_cons_self

theorem OpensAddress.free (h : OpensAddress cs) (l : List Char) :
    Free lineComments (· ∈ ['u', 'U']) (cs ++ l) := by
  obtain ⟨callee, before, found, rfl, hcallee, -⟩ := h
  obtain ⟨x, m, rfl, hx⟩ := hcallee.head
  have hplain : ∀ y ∈ ['u', 'U'], isBlank y = false ∧ y ≠ '/' := forall_mem_of_all rfl
  exact free_cons (hplain x hx).1 (hplain x hx).2 hx

/-- Two characters that the texts share are enough. -/
theorem replaces_shared (hcs : 2 ≤ cs.length) (k l : List Char) :
    Replaces strict (cs ++ k) (cs ++ l) := by
  match cs, hcs with
  | x :: y :: cs, _ => exact .inr ⟨x, _, _, rfl, rfl, fun _ _ => .inr ⟨y, _, _, rfl, rfl⟩⟩

theorem OpensAddress.replaces (h : OpensAddress cs) (k l : List Char) :
    Replaces strict (cs ++ k) (cs ++ l) := by
  refine replaces_shared ?_ k l
  obtain ⟨callee, before, found, rfl, hcallee, -⟩ := h
  rw [List.length_append, hcallee.length]
  omega

theorem opensAddress_url : OpensAddress "url(".toList :=
  ⟨['u', 'r', 'l'], [], [], rfl, rfl, by simp, by simp, nofun⟩

/-- An address misses where it begins; else it is closed, or fails where it could be. -/
theorem url_cases {c : Cursor} (hc : c.Within) :
    (∃ expected, url c = .missed c expected) ∨ ∃ cs stop, OpensAddress cs ∧ c.Reads cs stop ∧
      ((∃ v, stop.Reads [')'] (stop.advance 1) ∧ url c = .matched v (stop.advance 1)) ∨
        ∃ expected blamed, url c = .failed stop expected blamed) := by
  by_cases hpeek : isLowered ['u', 'r', 'l', '('] (c.ahead.take 4) = true
  · obtain ⟨callee, l, hahead, hcallee, -⟩ := isLowered_url hpeek
    obtain ⟨start, hopen, hbehind⟩ := reads_callee hc hahead
    have hstart := hopen.within hc
    have hblank : ∀ b ∈ l.takeWhile isBlank, isBlank b = true :=
      List.all_eq_true.mp List.all_takeWhile
    have hhead : ∀ b ∈ start.ahead.head?, isBlank b = false := hbehind ▸ head?_dropWhile_isBlank l
    have hfound := addressChars_append start.ahead
    rw [url_eq hc hcallee hopen hblank hhead]
    split
    · exact .inl ⟨_, rfl⟩
    · have hreads := hstart.reads hfound.symm
      have hopens : OpensAddress
          (callee ++ '(' :: (l.takeWhile isBlank ++ addressChars start.ahead)) :=
        ⟨_, _, _, rfl, hcallee, hblank, fun x hx => isAddressChar_of_mem hx,
          fun x hx => hhead x (head?_of_beginning ⟨_, hfound⟩ x hx)⟩
      refine .inr ⟨_, start.advance (addressChars start.ahead).length, hopens, ?_, ?_⟩
      · have hall := hopen.trans hreads
        rwa [List.append_assoc, List.cons_append] at hall
      · dsimp only
        split
        · rename_i hclose
          exact .inl ⟨_, .of_startsWith (hreads.within hstart) hclose, rfl⟩
        · exact .inr ⟨_, _, rfl⟩
  · rw [url_from, show c.peek 4 = c.ahead.take 4 from peek_of_within hc 4, if_neg hpeek]
    exact .inl ⟨_, rfl⟩

theorem url_lexeme : Lexeme deeper lineComments strict G Anything (· ∈ ['u', 'U']) url url where
  stays {c v rest} hc _ hmatch := by
    rcases url_cases hc with ⟨_, hmiss⟩ | ⟨cs, stop, hcs, hreads, ⟨u, hclose, hend⟩ | ⟨_, _, hfail⟩⟩
    · cases hmiss.symm.trans hmatch
    · cases hend.symm.trans hmatch
      refine ⟨cs ++ [')'], by simp, hreads.trans hclose, fun l _ => ⟨?_, ?_, hcs.consumes l⟩⟩
      · rw [hreads.ahead, List.append_assoc]
        exact hcs.replaces _ _
      · rw [List.append_assoc]
        exact hcs.free _
    · cases hfail.symm.trans hmatch
  resumes {c place} hdeeper hc _ hstop := by
    rcases url_cases hc with ⟨_, hmiss⟩ | ⟨cs, stop, hcs, hreads, ⟨u, -, hend⟩ | ⟨_, _, hfail⟩⟩
    · rw [hmiss] at hstop
      cases hstop
      exact .inl (.refl c)
    · exact absurd hend hstop.not_matched
    · rw [hfail] at hstop
      cases hstop
      refine .inr ⟨cs, [')'], ?_, hreads.to, fun l _ => ⟨?_, hcs.free _, hcs.consumes l⟩⟩
      · rintro rfl
        obtain ⟨callee, before, found, hnil, -⟩ := hcs
        simp at hnil
      · exact hreads.ahead ▸ hcs.replaces _ _
  fills _ := ⟨"url()".toList, fun l _ => ⟨by simp, opensAddress_url.free (')' :: l),
    opensAddress_url.consumes l⟩⟩

end LessSyntax.Grammar
