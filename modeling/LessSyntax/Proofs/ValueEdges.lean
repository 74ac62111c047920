import LessSyntax.Proofs.Written
import LessSyntax.Tree.Same

/-!
# Where values begin and end

A value that is read ends before a boundary, and the rules for values miss where one is ahead. What
a value begins with is none of the characters that may stand behind one, so that a value is never
taken for the end of another.

* `Ends`: what stands behind a value, with trivia between.
* `primitive_refuses`, `slashList_refuses`, `spaceList_refuses`: no value begins at a boundary.
* `Value.Written.head`: what a written value begins with.
-/

namespace LessSyntax

open Grammar Rule

namespace Grammar

variable {s : Settings} {inner? : Option (Rule Value)} {w k l : List Char}

/-! ## What may stand behind a value -/

/-- Behind trivia stands one of the given characters, or the end of the text. -/
def Ends (lineComments : Bool) (chars k : List Char) : Prop :=
  ∃ w l, k = w ++ l ∧ TriviaRun lineComments w l ∧ ∀ x ∈ l.head?, x ∈ chars

/-- The characters that end a value. -/
def valueEnds : List Char := [')', ';', '!', '}']

/-- The characters that end an element of a list with commas. -/
def elementEnds : List Char := ',' :: valueEnds

theorem triviaRun_boundary {lineComments : Bool} (hrun : TriviaRun lineComments w l)
    (hl : Boundary l) : Boundary (w ++ l) := by
  cases hrun with
  | nil => exact hl
  | cons hpiece _ =>
    generalize hrest : (_ ++ l : List Char) = rest at hpiece
    rw [List.append_assoc]
    cases hpiece with
    | blank hb => exact boundary_cons (isBlank_mem_boundaryChars hb) _
    | block _ => exact boundary_cons (by decide) _
    | line _ _ => exact boundary_cons (by decide) _
    | lastLine _ _ => exact boundary_cons (by decide) _

theorem Ends.mono {lineComments : Bool} {chars chars' : List Char} (hsub : chars ⊆ chars')
    (h : Ends lineComments chars k) : Ends lineComments chars' k := by
  obtain ⟨w, l, hk, hrun, hl⟩ := h
  exact ⟨w, l, hk, hrun, fun x hx => hsub (hl x hx)⟩

theorem elementEnds_subset : elementEnds ⊆ boundaryChars := by decide

theorem isBlank_elementEnds : ∀ x ∈ elementEnds, isBlank x = false := apart_of_all rfl

theorem noTrivia_of_ends {lineComments : Bool} (h : ∀ x ∈ l.head?, x ∈ elementEnds) :
    NoTrivia lineComments l := by
  cases l with
  | nil => exact noTrivia_nil
  | cons x l =>
    have hx := h x rfl
    apply noTrivia_cons (isBlank_elementEnds x hx)
    rintro rfl
    exact absurd hx (by decide)

theorem Ends.boundary {lineComments : Bool} (h : Ends lineComments elementEnds k) :
    Boundary k := by
  obtain ⟨w, l, rfl, hrun, hl⟩ := h
  exact triviaRun_boundary hrun fun x hx => elementEnds_subset (hl x hx)

/-- A symbol that is none of the characters behind the trivia is refused. -/
theorem Ends.symbol_refuses {chars : List Char} {x : Char} (hsub : chars ⊆ elementEnds)
    (hx : x ∉ chars) (h : Ends s.lineComments chars k) : (symbol s [x]).Refuses k := by
  obtain ⟨w, l, rfl, hrun, hl⟩ := h
  refine Grammar.symbol_refuses hrun (noTrivia_of_ends fun y hy => hsub (hl y hy)) (by simp) ?_
  rintro ⟨m, rfl⟩
  exact hx (hl x rfl)

/-! ## What a primitive value is not -/

theorem quotationMark_boundary : ∀ x ∈ boundaryChars, isQuotationMark x = false := apart_of_all rfl

theorem url_refuses_head (h : ∀ x ∈ k.head?, isNameChar x = false) : url.Refuses k := by
  intro c hc hahead
  refine url_misses hc (Bool.eq_false_iff.mpr fun hlowered => ?_)
  obtain ⟨cs, l, hcs, hcallee, -⟩ := isLowered_url hlowered
  obtain ⟨x, m, rfl, hx⟩ := hcallee.cons
  rw [h x (by rw [← hahead, hcs]; rfl)] at hx
  cases hx

theorem callOver_refuses (h : name.Refuses k) : (callOver s inner?).Refuses k := by
  intro c hc hahead
  obtain ⟨place, expected, hmiss⟩ := h c hc hahead
  refine ⟨c, "function", ?_⟩
  unfold callOver
  rw [hmiss]

/-- A name is no call where no parenthesis opens behind it. -/
theorem callOver_refuses_name {cs : List Char} (h : IsName cs)
    (hk : ∀ x ∈ k.head?, isNameChar x = false) (hparen : ∀ x ∈ k.head?, x ≠ '(') :
    (callOver s inner?).Refuses (cs ++ k) := by
  intro c hc hahead
  obtain ⟨t, ht, -⟩ := accepts_name h hk c hc hahead
  refine ⟨c, "function", ?_⟩
  unfold callOver
  have hstarts : (c.advance cs.length).startsWith ['('] = false :=
    startsWith_one_false (by rwa [hc.ahead_advance hahead])
  rw [ht]
  dsimp only
  rw [hstarts]
  rfl

/-- At a boundary there is no primitive value. -/
theorem primitive_refuses (hrun : TriviaRun s.lineComments w l)
    (hstop : NoTrivia s.lineComments l) (hl : Boundary l) :
    (primitiveOver s inner?).Refuses (w ++ l) := by
  refine token_refuses hrun hstop fun c hc hahead => choice_misses fun r hr => ?_
  have hname : ∀ x ∈ l.head?, isNameChar x = false := hl.stops isNameChar_boundary
  simp only [List.mem_cons, List.not_mem_nil, or_false] at hr
  rcases hr with rfl | rfl | rfl | rfl | rfl | rfl | rfl | rfl
  · exact quotedString_refuses (hl.stops quotationMark_boundary) c hc hahead
  · exact color_refuses (hl.head_ne (by decide)) c hc hahead
  · exact number_refuses (numberLength?_none hl.numberStop) c hc hahead
  · exact url_refuses_head hname c hc hahead
  · exact callOver_refuses (name_refuses hname) c hc hahead
  · exact map_refuses (atName_refuses (hl.head_ne (by decide))) c hc hahead
  · exact map_refuses (nameAfter_refuses (hl.head_ne (by decide))) c hc hahead
  · exact map_refuses (name_refuses hname) c hc hahead

theorem slashList_refuses (hrun : TriviaRun s.lineComments w l)
    (hstop : NoTrivia s.lineComments l) (hl : Boundary l) :
    (slashListOver s inner?).Refuses (w ++ l) := by
  intro c hc hahead
  exact map_misses (bind_misses (primitive_refuses hrun hstop hl c hc hahead))

theorem spaceList_refuses (hrun : TriviaRun s.lineComments w l)
    (hstop : NoTrivia s.lineComments l) (hl : Boundary l) :
    (spaceListOver s inner?).Refuses (w ++ l) := by
  intro c hc hahead
  exact map_misses (bind_misses (slashList_refuses hrun hstop hl c hc hahead))

/-! ## What a value begins with -/

/-- The characters that no value begins with. -/
def nonHeads : List Char := '*' :: '{' :: boundaryChars

theorem quotationMark_nonHeads : ∀ x ∈ nonHeads, isQuotationMark x = false := apart_of_all rfl

theorem isNumeric_nonHeads : ∀ x ∈ nonHeads, isNumeric x = false := apart_of_all rfl

theorem isNameChar_nonHeads : ∀ x ∈ nonHeads, isNameChar x = false := apart_of_all rfl

theorem isNameChar_plain {x : Char} (hx : isNameChar x = true) :
    isQuotationMark x = false ∧ x ≠ '#' ∧ x ≠ '@' ∧ x ≠ '$' :=
  ⟨(plain_of_isNameChar hx).2, ne_of_class hx rfl, ne_of_class hx rfl, ne_of_class hx rfl⟩

theorem isNumeric_plain {x : Char} (hx : isNumeric x = true) :
    isQuotationMark x = false ∧ x ≠ '#' :=
  ⟨(plain_of_isNumeric hx).2, ne_of_class hx rfl⟩

theorem StringText.head {v : Value} (h : StringText v) :
    ∃ q l, v.print = q :: l ∧ isQuotationMark q = true := by
  have hmark : ∀ {quote : Quote} {q : Char}, Mark quote q → isQuotationMark q = true := by
    intro quote q hq
    cases hq <;> decide
  cases h with
  | @plain text quote q hq _ =>
    refine ⟨q, text.chars ++ quote.chars, ?_, hmark hq⟩
    rw [Value.print, hq.chars]
    rfl
  | @interpolated first parts quote q hq _ _ _ =>
    refine ⟨q, renderSegments Interpolation.print first parts ++ quote.chars, ?_, hmark hq⟩
    rw [Value.print, hq.chars]
    rfl

end Grammar

/-- A value that can be written begins with a character that neither belongs to trivia nor ends a
value. -/
theorem Value.Written.head : ∀ {rank : Nat} {v : Value}, v.Written rank →
    ∃ x l, v.print = x :: l ∧ x ∉ nonHeads
  | _, .string _ _, h | _, .interpolated _ _ _, h => by
    obtain ⟨q, l, hprint, hq⟩ := StringText.head h
    exact ⟨q, l, hprint, notMem_of_apart quotationMark_nonHeads hq⟩
  | _, .number value unit, h => by
    obtain ⟨x, l, hvalue, hx⟩ := h.1.cons
    refine ⟨x, l ++ (unit.map Text.chars).getD [], ?_, notMem_of_apart isNumeric_nonHeads hx⟩
    rw [Value.print, hvalue]
    rfl
  | _, .identifier name, h => by
    obtain ⟨x, l, hname, hx⟩ := IsName.cons h.1
    exact ⟨x, l, hname, notMem_of_apart isNameChar_nonHeads hx⟩
  | _, .call name arguments, h => by
    obtain ⟨x, l, hname, hx⟩ := IsName.cons h.1.1
    refine ⟨x, l ++ '(' :: Value.argumentsText arguments ++ [')'], ?_,
      notMem_of_apart isNameChar_nonHeads hx⟩
    rw [Value.print, hname]
    rfl
  | _, .color _, _ | _, .variable _, _ | _, .property _, _ | _, .url _, _ =>
    ⟨_, _, rfl, by decide⟩
  | _, .list (v :: vs) separator, h => by
    obtain ⟨x, l, hprint, hx⟩ := Value.Written.head h.2.2.1
    refine ⟨x, l ++ vs.flatMap fun v => separator.print ++ v.print, ?_, hx⟩
    rw [Value.print, intercalate_printAll, hprint]
    rfl

namespace Grammar

theorem Written.noTrivia {lineComments : Bool} {rank : Nat} {v : Value} (h : v.Written rank)
    (k : List Char) : NoTrivia lineComments (v.print ++ k) := by
  obtain ⟨x, l, hprint, hx⟩ := h.head
  rw [hprint]
  refine noTrivia_cons (Bool.eq_false_iff.mpr fun hblank => ?_) ?_
  · exact hx (List.mem_cons_of_mem _ (List.mem_cons_of_mem _ (isBlank_mem_boundaryChars hblank)))
  · rintro rfl
    exact hx (by decide)

end Grammar

end LessSyntax
