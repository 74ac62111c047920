import LessSyntax.Proofs.LexemeAgreement
import LessSyntax.Proofs.TokenViability

/-!
# Strings that can be completed

A string stops within a segment, within an interpolation or where it is not closed. There it goes
on with a plain character, with what the interpolation lacks, and with the closing mark. Behind
that mark any text may follow.

* `segmentEnd_error`, `segment_viable`: a segment that cannot go on.
* `interpolation_viable`, `stringPart_viable`, `stringParts_viable`: what stands behind the first
  segment.
* `quotedString_lexeme`: strings of either kind.
-/

namespace LessSyntax.Grammar

open Rule

variable {deeper : Prop} {lineComments strict : Bool} {G : Cursor → Prop} {l : List Char}

/-! ## Segments -/

/-- A cursor behind the end of the text is taken back to the end. -/
theorem clamped_advance {c : Cursor} (hc : c.Within) (count : Nat) :
    (c.advance count).clamped = c.advance (min count c.ahead.length) := by
  have hlength := hc.length_ahead
  have hin : (c.advance count).inText = decide (c.pos + count ≤ c.size) := by
    rw [Cursor.inText, Cursor.pos_advance, Cursor.size_advance]
  unfold Cursor.clamped
  rw [hin]
  by_cases hle : count ≤ c.ahead.length
  · rw [if_pos (decide_eq_true (by omega)), Nat.min_eq_left hle]
  · rw [if_neg (by simp; omega), Nat.min_eq_right (by omega)]
    refine Cursor.ext_pos ?_ ?_ ?_
    · simp
    · rw [Cursor.pos_moveTo, Cursor.pos_advance, Cursor.size_advance]
      omega
    · simp

section

variable {quote : Quote} {q : Char} (hq : Mark quote q)
include hq

/-- Where a segment cannot go on, a plain character instead of what stands there makes it one. A
backslash at the end is counted with the character that it lacks. -/
theorem segmentEnd_error {pos count : Nat} (h : segmentEnd quote pos l = .error count) :
    ∃ t m, l = t ++ m ∧ (count = pos + t.length ∨ m = [] ∧ count = pos + t.length + 1) ∧
      segmentEnd quote pos (t ++ ['a', q]) = .ok (pos + (t.length + 1)) := by
  have hmark : ∀ pos, segmentEnd quote pos [q] = .ok pos := segmentEnd_here (endsSegment_mark hq [])
  have hplain : ∀ pos, segmentEnd quote pos ['a', q] = .ok (pos + 1) := fun pos =>
    (segmentEnd_plain (by cases hq <;> rfl) (by decide) (by decide) pos).trans (hmark (pos + 1))
  fun_induction segmentEnd quote pos l with
  | case1 pos =>
    cases h
    exact ⟨[], [], rfl, .inl rfl, hplain _⟩
  | case2 => cases h
  | case3 pos c hescape hends =>
    cases h
    refine ⟨['\\'], [], by rw [beq_iff_eq.mp hescape]; rfl, .inr ⟨rfl, rfl⟩, ?_⟩
    exact (segmentEnd_escape hq pos 'a' [q]).trans (hmark (pos + 2))
  | case4 pos c hescape d ds hends ih =>
    obtain ⟨t, m, rfl, hcount, hend⟩ := ih h
    refine ⟨'\\' :: d :: t, m, by rw [beq_iff_eq.mp hescape]; rfl, ?_, ?_⟩
    · simp only [List.length_cons]
      exact hcount.imp (fun h => by omega) fun h => ⟨h.1, by omega⟩
    · refine (segmentEnd_escape hq pos d _).trans (hend.trans ?_)
      simp only [List.length_cons]
      congr 1
      omega
  | case5 pos c cs =>
    cases h
    exact ⟨[], c :: cs, rfl, .inl rfl, hplain _⟩
  | case6 pos c cs hends hescape hline ih =>
    obtain ⟨t, m, rfl, hcount, hend⟩ := ih h
    refine ⟨c :: t, m, rfl, ?_, ?_⟩
    · simp only [List.length_cons]
      exact hcount.imp (fun h => by omega) fun h => ⟨h.1, by omega⟩
    · have hends' : endsSegment quote c (t ++ ['a', q]) = false := by
        cases t with
        | nil =>
          have hne : ([c] == quote.chars) = false := by
            rw [Bool.eq_false_iff]
            intro hc
            exact hends (by rw [endsSegment, hc, Bool.true_or])
          rw [List.nil_append, endsSegment_cons, hne, Bool.false_or]
          exact Bool.and_false _
        | cons d t =>
          rw [List.cons_append, endsSegment_cons] at hends ⊢
          exact Bool.eq_false_iff.mpr hends
      refine (segmentEnd_plain hends' (by simpa using hescape) (by simpa using hline) pos).trans
        (hend.trans ?_)
      simp only [List.length_cons]
      congr 1
      omega

theorem consumes_segment {t l : List Char} (his : IsSegment quote t) (hl : AtSegmentEnd quote l) :
    (segment quote).Consumes t l :=
  accepts_mono (accepts_segment hq his hl) fun _ _ => trivial

/-- A segment is read before whatever ends it. -/
theorem segment_viable : ViableIf deeper (fun _ b => AtSegmentEnd quote b) Anything (segment quote)
    (segment quote) where
  stays hc hmatch := by
    obtain ⟨t, hreads, his, -⟩ := segment_matched hq hc hmatch
    exact ⟨t, hreads, fun l hl => ⟨trivial, consumes_segment hq his hl⟩⟩
  resumes {c place} hdeeper hc hstop := by
    rw [segment_eq hc.1] at hstop
    cases hend : segmentEnd quote 0 c.ahead with
    | ok count =>
      rw [hend] at hstop
      cases hstop
    | error count =>
      rw [hend] at hstop
      cases hstop
      obtain ⟨t, m, hahead, hcount, hok⟩ := segmentEnd_error hq hend
      have hplace : min count c.ahead.length = t.length := by
        have hlength := congrArg List.length hahead
        rw [List.length_append] at hlength
        rcases hcount with rfl | ⟨rfl, rfl⟩
        · omega
        · simp only [List.length_nil] at hlength
          omega
      have his : IsSegment quote (t ++ ['a']) := by
        rw [IsSegment, hq.chars, List.append_assoc, List.length_append]
        simpa using hok
      refine ⟨t, ['a'], ?_, fun l hl => ⟨trivial, consumes_segment hq his hl⟩⟩
      rw [clamped_advance hc, hplace]
      exact (hc.reads hahead).to
  fills hdeeper := by
    refine ⟨[], fun l hl => ⟨trivial, consumes_segment hq ?_ hl⟩⟩
    rw [IsSegment, hq.chars]
    exact segmentEnd_here (endsSegment_mark hq []) 0

theorem quoteMark_viable :
    ViableIf deeper Anything (fun _ b => [q] <+: b) (quoteMark quote) (quoteMark quote) where
  stays hc hmatch := ⟨[q], quoteMark_matched hq hc hmatch, fun l _ =>
    ⟨List.prefix_append [q] l, accepts_quoteMark hq⟩⟩
  resumes {c place} hdeeper hc hstop := by
    have hplace : place = c := by
      unfold quoteMark at hstop
      split at hstop <;> cases hstop
      rfl
    subst hplace
    exact ⟨[], [q], .refl _, fun l _ => ⟨List.prefix_append [q] l, accepts_quoteMark hq⟩⟩
  fills _ := ⟨[q], fun l _ => ⟨List.prefix_append [q] l, accepts_quoteMark hq⟩⟩

/-! ## Interpolations -/

omit hq in
theorem delimitedName_viable {opening : List Char} (hne : opening ≠ []) :
    ViableIf deeper Anything (fun _ b => opening <+: b)
      (delimited (literal opening) name (literal ['}']))
      (delimited (literal opening) name (literal ['}'])) := by
  have hclose : ∀ a b : List Char, ['}'] <+: b → (∀ x ∈ a.head?, isNameChar x = false) →
      ∀ x ∈ b.head?, isNameChar x = false := by
    rintro a _ ⟨m, rfl⟩ -
    exact head_cons (by decide)
  exact viable_preceded (literal_viable hne)
    (viable_terminated name_viable ((literal_viable (by simp)).mono (fun _ _ => id) hclose))

omit hq in
/-- What an interpolation begins with is read by the first rule of the choice or by the second. -/
theorem interpolation_viable :
    ViableIf deeper Anything (fun _ b => AtSegmentEnd quote b) interpolation interpolation := by
  have hnamed : ∀ {x : Char}, x = '@' ∨ x = '$' →
      ViableIf deeper Anything (fun _ b => AtSegmentEnd quote b)
      (delimited (literal [x, '{']) name (literal ['}']))
      (delimited (literal [x, '{']) name (literal ['}'])) := by
    refine fun {x} hx => (delimitedName_viable (by simp)).mono (fun _ _ => id) ?_
    rintro a _ ⟨m, rfl⟩
    refine ⟨x, '{' :: m, rfl, ?_⟩
    rw [endsSegment_cons]
    rcases hx with rfl | rfl <;> simp
  refine viable_choice fun r hr => ?_
  simp only [List.mem_cons, List.not_mem_nil, or_false] at hr
  rcases hr with rfl | rfl
  · exact (viable_map (g := Interpolation.variable) (hnamed (.inl rfl))).trans
      fun cs l hconsumes => accepts_choice_head hconsumes
  · refine (viable_map (g := Interpolation.property) (hnamed (.inr rfl))).trans
      fun cs l hconsumes c hc hahead => ?_
    obtain ⟨v, hv, -⟩ := hconsumes c hc hahead
    obtain ⟨text, hname, -⟩ := map_matched.mp hv
    obtain ⟨opened, -, -, hopen, -⟩ := delimitedName_matched (by simp) hc hname
    refine ⟨v, choice_tail ?_ (choice_head hv), trivial⟩
    refine map_misses (map_misses (both_misses (literal_misses (startsWith_false (by simp) ?_))))
    rw [hopen.ahead]
    simp

/-- Where an interpolation is read the string is not closed. -/
theorem startsWith_of_interpolation {c rest : Cursor} {i : Interpolation} (hc : c.Within)
    (h : interpolation c = .matched i rest) : c.startsWith quote.chars = false := by
  rw [hq.chars]
  refine startsWith_one_false ?_
  cases (interpolation_ensures c i rest hc h).2 with
  | ofVariable hopen | ofProperty hopen =>
    rw [hopen.ahead]
    refine head_cons ?_
    cases hq <;> decide

/-- An interpolation and the segment behind it, wherever no mark closes the string. -/
theorem stringPart_viable : ViableIf deeper (fun _ b => AtSegmentEnd quote b)
    (fun _ b => AtSegmentEnd quote b) (stringPart quote) (stringPart quote) := by
  have hboth : ViableIf deeper (fun _ b => AtSegmentEnd quote b) (fun _ b => AtSegmentEnd quote b)
      (both (cut interpolation "string interpolation") (segment quote))
      (both (cut interpolation "string interpolation") (segment quote)) :=
    viable_both (viable_cut interpolation_viable) (segment_viable hq)
  have hopened : ViableIf deeper (fun _ b => AtSegmentEnd quote b) (fun _ b => AtSegmentEnd quote b)
      (stringPart quote) (both (cut interpolation "string interpolation") (segment quote)) := {
    stays := fun {c part rest} hc hmatch => by
      unfold stringPart at hmatch
      split at hmatch
      · cases hmatch
      · exact hboth.stays hc hmatch
    resumes := fun {c place} hdeeper hc hstop => by
      unfold stringPart at hstop
      split at hstop
      · cases hstop
        obtain ⟨d, hd⟩ := hboth.fills hdeeper
        exact ⟨[], d, .refl _, hd⟩
      · exact hboth.resumes hdeeper hc hstop
    fills hdeeper := hboth.fills hdeeper }
  refine hopened.trans fun cs l hconsumes c hc hahead => ?_
  obtain ⟨part, hmatch, -⟩ := hconsumes c hc hahead
  obtain ⟨mid, hopen, -⟩ := both_matched.mp hmatch
  refine ⟨part, ?_, trivial⟩
  rw [stringPart, startsWith_of_interpolation hq hc (cut_matched.mp hopen),
    if_neg Bool.false_ne_true]
  exact hmatch

theorem stringParts_viable : ViableIf deeper Anything (fun _ b => AtSegmentEnd quote b)
    (stringParts quote) (stringParts quote) := by
  have hmark : ∀ a b : List Char, [q] <+: b → AtSegmentEnd quote b := by
    rintro a _ ⟨m, rfl⟩
    exact ⟨q, m, rfl, endsSegment_mark hq m⟩
  have hmany : ViableIf deeper (fun _ b => [q] <+: b) (fun _ b => AtSegmentEnd quote b)
      (many1 (stringPart quote)) (many1 (stringPart quote)) := by
    refine viable_many1 (stringPart_viable hq) (stringPart_advances hq) (stringPart_advances hq)
      hmark (fun _ _ => id) ?_
    rintro a _ ⟨m, rfl⟩
    exact stringPart_refuses hq
  exact viable_terminated hmany (quoteMark_viable hq)

end

/-! ## Whole strings -/

/-- What stands behind the first segment of a string: the closing mark, or interpolations. -/
def stringTail (quote : Quote) : Rule (Option (OneOrMore (Interpolation × Text))) := fun c =>
  if c.startsWith quote.chars then .matched none (c.advance 1) else map some (stringParts quote) c

theorem stringLiteral_eq (quote : Quote) :
    stringLiteral quote = map
      (fun v => match v.2 with
        | none => .string v.1 quote
        | some parts => .interpolated v.1 parts.toList quote)
      (both (preceded (quoteMark quote) (segment quote)) (stringTail quote)) := by
  funext c
  unfold stringLiteral map both
  cases preceded (quoteMark quote) (segment quote) c with
  | matched first rest =>
    simp only [Outcome.bind, stringTail]
    split
    · rfl
    · unfold map
      cases stringParts quote rest <;> rfl
  | _ => rfl

section

variable {quote : Quote} {q : Char} (hq : Mark quote q)
include hq

theorem consumes_closing (l : List Char) : AtSegmentEnd quote ([q] ++ l) ∧
    (stringTail quote).Consumes [q] l := by
  refine ⟨⟨q, l, rfl, endsSegment_mark hq l⟩, fun c _ hahead => ⟨none, ?_, trivial⟩⟩
  rw [stringTail, hq.chars, if_pos ((Cursor.startsWith_iff (by simp)).mpr ⟨l, hahead⟩)]
  rfl

omit hq in
/-- No mark stands where an interpolation does. -/
theorem consumes_parts {cs l : List Char} (h : (stringParts quote).Consumes cs l) :
    (stringTail quote).Consumes cs l := by
  intro c hc hahead
  obtain ⟨parts, hmatch, -⟩ := h c hc hahead
  have hopen : c.startsWith quote.chars = false := by
    rw [Bool.eq_false_iff]
    intro hstarts
    obtain ⟨v, hboth, -⟩ := map_matched.mp hmatch
    obtain ⟨mid, hmany, -⟩ := both_matched.mp hboth
    obtain ⟨part, stop, hpart, -⟩ := Outcome.bind_matched.mp hmany
    rw [stringPart, if_pos hstarts] at hpart
    cases hpart
  refine ⟨some parts, ?_, trivial⟩
  rw [stringTail, hopen, if_neg Bool.false_ne_true]
  exact map_matched.mpr ⟨parts, hmatch, rfl⟩

theorem stringTail_viable : ViableIf deeper Anything (fun _ b => AtSegmentEnd quote b)
    (stringTail quote) (stringTail quote) where
  stays hc hmatch := by
    unfold stringTail at hmatch
    split at hmatch
    · rename_i hstarts
      rw [hq.chars] at hstarts
      cases hmatch
      exact ⟨[q], .of_startsWith hc hstarts, fun l _ => consumes_closing hq l⟩
    · obtain ⟨parts, hmatch, -⟩ := map_matched.mp hmatch
      have hparts : Viable Anything (fun _ b => AtSegmentEnd quote b) (stringParts quote)
          (stringParts quote) := stringParts_viable hq
      obtain ⟨cs, hreads, hstays⟩ := hparts.stays hc hmatch
      exact ⟨cs, hreads, fun l hl => (hstays l hl).imp_right consumes_parts⟩
  resumes hdeeper hc hstop := by
    unfold stringTail at hstop
    split at hstop
    · cases hstop
    · obtain ⟨cs, x, hreads, hresumes⟩ :=
        (stringParts_viable hq).resumes hdeeper hc (Outcome.stopsAt_map hstop)
      exact ⟨cs, x, hreads, fun l hl => (hresumes l hl).imp_right consumes_parts⟩
  fills _ := ⟨[q], fun l _ => consumes_closing hq l⟩

theorem stringLiteral_viable : ViableIf deeper Anything (fun _ b => [q] <+: b) (stringLiteral quote)
    (stringLiteral quote) := by
  rw [stringLiteral_eq]
  exact viable_map (viable_both (viable_preceded (quoteMark_viable hq) (segment_viable hq))
    (stringTail_viable hq))

theorem stringLiteral_lexeme :
    Lexeme deeper lineComments strict G Anything (· = q) (stringLiteral quote)
      (stringLiteral quote) := by
  have hadvances : (stringLiteral quote).Advances :=
    ensures_mono (stringLiteral_ensures hq) fun _ _ _ _ _ h => h.advances
  refine lexeme_of_mark (stringLiteral_viable hq) hadvances ?_ ?_ fun _ => ?_ <;> cases hq <;>
    decide

/-- What one of the two rules reads is read as a string. -/
theorem consumes_quotedString {cs l : List Char} (h : (stringLiteral quote).Consumes cs l) :
    quotedString.Consumes cs l := by
  cases hq with
  | double => exact accepts_choice_head h
  | single =>
    intro c hc hahead
    obtain ⟨v, hmatch, -⟩ := h c hc hahead
    obtain ⟨first, mid, hfirst, -⟩ := Outcome.bind_matched.mp hmatch
    obtain ⟨w, hboth, -⟩ := map_matched.mp hfirst
    obtain ⟨opened, hmark, -⟩ := both_matched.mp hboth
    have hmiss : MissesAt (stringLiteral .double) c :=
      stringLiteral_refuses .double (head_cons (by decide)) c hc
        (quoteMark_matched .single hc hmark).ahead
    exact ⟨v, choice_tail hmiss (choice_head hmatch), trivial⟩

end

theorem quotedString_lexeme :
    Lexeme deeper lineComments strict G Anything (isQuotationMark · = true) quotedString
      quotedString := by
  have hlexeme : ∀ {quote q}, Mark quote q → isQuotationMark q = true →
      Lexeme deeper lineComments strict G Anything (isQuotationMark · = true) (stringLiteral quote)
        quotedString := fun hq hmark =>
    ((stringLiteral_lexeme hq).mono (fun _ => id) (fun _ _ => id)
      (by rintro _ rfl; exact hmark)).trans fun _ _ _ _ => consumes_quotedString hq
  refine lexeme_choice fun r hr => ?_
  simp only [List.mem_cons, List.not_mem_nil, or_false] at hr
  rcases hr with rfl | rfl
  · exact hlexeme .double (by decide)
  · exact hlexeme .single (by decide)

end LessSyntax.Grammar
