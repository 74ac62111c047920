import LessSyntax.Proofs.LexemeAgreement
import LessSyntax.Proofs.ValueReading

/-!
# What a value ends with

No value ends with a blank, a newline among them: its last character is a quotation mark, a
parenthesis, or one of a name, a number or a colour. So a newline that is added to a value is left
behind it.

* `EndsSolid`: what is read ends with a character that is no blank.
* `ReadsPrimitive.endsSolid`, `ReadsList.endsSolid`: the parts of values.
* `valueAt_endsSolid`: values.
-/

namespace LessSyntax.Grammar

open Rule

variable {s : Settings} {lineComments : Bool} {c start mid rest : Cursor} {cs : List Char}
  {v : Value} {x : Char}

/-- Between the two cursors something is read, and its last character is no blank. -/
def EndsSolid (c rest : Cursor) : Prop :=
  ∃ cs x, c.Reads (cs ++ [x]) rest ∧ isBlank x = false

theorem EndsSolid.behind (hcs : c.Reads cs mid) (h : EndsSolid mid rest) : EndsSolid c rest := by
  obtain ⟨ds, x, hreads, hx⟩ := h
  refine ⟨cs ++ ds, x, ?_, hx⟩
  rw [List.append_assoc]
  exact hcs.trans hreads

theorem EndsSolid.trans (h : EndsSolid c mid) (h' : EndsSolid mid rest) : EndsSolid c rest := by
  obtain ⟨cs, x, hreads, -⟩ := h
  exact h'.behind hreads

/-- A mark that is no blank. -/
theorem endsSolid_mark (h : c.Reads [x] rest) (hx : isBlank x = false) : EndsSolid c rest :=
  ⟨[], x, h, hx⟩

theorem endsSolid_symbol (h : ReadsSymbol lineComments [x] c rest) (hx : isBlank x = false) :
    EndsSolid c rest := by
  obtain ⟨mid, ⟨w, hw, -⟩, hmark⟩ := h
  exact (endsSolid_mark hmark hx).behind hw

theorem exists_last (hne : cs ≠ []) : ∃ ds x, cs = ds ++ [x] := by
  rcases List.eq_nil_or_concat cs with h | ⟨ds, x, h⟩
  · exact absurd h hne
  · exact ⟨ds, x, h.trans List.concat_eq_append⟩

/-- Characters of a class that holds no boundaries. -/
theorem endsSolid_class {isIn : Char → Bool} (hboundary : ∀ x ∈ boundaryChars, isIn x = false)
    (h : c.Reads cs rest) (hne : cs ≠ []) (hall : ∀ x ∈ cs, isIn x = true) : EndsSolid c rest := by
  obtain ⟨ds, x, rfl⟩ := exists_last hne
  refine ⟨ds, x, h, Bool.eq_false_iff.mpr fun hblank => ?_⟩
  exact notMem_of_apart hboundary (hall x (by simp)) (isBlank_mem_boundaryChars hblank)

/-! ## Lists -/

section

variable {separator : Separator} {Q : Cursor → Value → Cursor → Prop}

theorem ReadsJoint.reads (h : ReadsJoint lineComments separator c rest) :
    ∃ cs, c.Reads cs rest := by
  cases separator with
  | space => exact ⟨[], h ▸ .refl c⟩
  | slash | comma =>
    obtain ⟨mid, ⟨w, hw, -⟩, hmark⟩ := h
    exact ⟨_, hw.trans hmark⟩

theorem ReadsAll.endsSolid (hQ : ∀ c v rest, Q c v rest → EndsSolid c rest) {vs : List Value}
    (h : ReadsAll (fun c v rest => ∃ next, ReadsJoint lineComments separator c next ∧ Q next v rest)
      mid vs rest) (hfirst : EndsSolid c mid) : EndsSolid c rest := by
  induction h with
  | nil => exact hfirst
  | cons hnext _ ih =>
    obtain ⟨next, hjoint, hvalue⟩ := hnext
    obtain ⟨cs, hcs⟩ := hjoint.reads
    exact ih (hfirst.trans ((hQ _ _ _ hvalue).behind hcs))

theorem ReadsList.endsSolid (hQ : ∀ c v rest, Q c v rest → EndsSolid c rest)
    (h : ReadsList lineComments separator Q c v rest) : EndsSolid c rest := by
  obtain ⟨vs, mid, -, hfirst, hothers⟩ := h
  exact ReadsAll.endsSolid hQ hothers (hQ _ _ _ hfirst)

end

/-! ## Primitive values -/

theorem endsSolid_name (h : c.Reads cs rest) (his : IsName cs) : EndsSolid c rest :=
  endsSolid_class isNameChar_boundary h his.ne_nil his.all

theorem ReadsString.endsSolid (h : ReadsString c v rest) : EndsSolid c rest := by
  have hmark : ∀ {quote : Quote} {q : Char}, Mark quote q → isBlank q = false := by
    intro quote q hq
    cases hq <;> rfl
  cases h with
  | plain hq hopen hsegment hclose _ =>
    exact (endsSolid_mark hclose (hmark hq)).behind (hopen.trans hsegment)
  | interpolated hq hopen hsegment hparts hclose _ _ =>
    obtain ⟨ds, hds⟩ := hparts.reaches
    exact (endsSolid_mark hclose (hmark hq)).behind ((hopen.trans hsegment).trans hds)

/-- No number goes on with a blank. -/
theorem NumberText.endsSolid {value unit : List Char} (htext : NumberText value unit)
    (h : c.Reads value rest) : EndsSolid c rest := by
  obtain ⟨ds, x, rfl⟩ := exists_last htext.value_ne_nil
  refine ⟨ds, x, h, Bool.eq_false_iff.mpr fun hblank => ?_⟩
  have hlength := htext.length
  have hboundary : Boundary (x :: unit) := boundary_cons (isBlank_mem_boundaryChars hblank) unit
  rw [List.append_assoc, List.singleton_append, numberLength?_boundary hboundary] at hlength
  have hle := (numberLength?_bounds hlength).2
  rw [List.length_append, List.length_singleton] at hle
  omega

theorem IsUnit.endsSolid {unit : List Char} (his : IsUnit unit) (hne : unit ≠ [])
    (h : c.Reads unit rest) : EndsSolid c rest := by
  rcases his with rfl | hall
  · exact endsSolid_mark h (by decide)
  · exact endsSolid_class isLetter_boundary h hne hall

theorem ReadsNumber.endsSolid (h : ReadsNumber c v rest) : EndsSolid c rest := by
  cases h with
  | plain hvalue htext => exact htext.endsSolid hvalue
  | withUnit hvalue hunit hne htext => exact (htext.unit.endsSolid hne hunit).behind hvalue

/-- The arguments of a call end with its parenthesis. -/
theorem ReadsArguments.endsSolid {vs : List Value}
    (h : ReadsArguments lineComments (fun c _ rest => EndsSolid c rest) c vs rest) :
    EndsSolid c rest := by
  cases h with
  | none hclose => exact endsSolid_symbol hclose (by decide)
  | @some mid stop _ _ vs hfirst hothers hclose =>
    have hall : ReadsAll (fun c _ rest => ∃ next, ReadsJoint lineComments .comma c next ∧
        EndsSolid next rest) mid vs stop := hothers
    have hlist : EndsSolid c stop := ReadsAll.endsSolid (fun _ _ _ h => h) hall hfirst
    exact hlist.trans (endsSolid_symbol hclose (by decide))

theorem ReadsCall.endsSolid
    (h : ReadsCall lineComments (fun c _ rest => EndsSolid c rest) c v rest) :
    EndsSolid c rest := by
  cases h with
  | intro hname hopen _ hfound _ =>
    obtain ⟨cs, x, hreads, hx⟩ := hfound.endsSolid
    have hinside : EndsSolid _ _ := ⟨cs, x, hreads.of_nested, hx⟩
    have hcall := hinside.behind (hname.trans hopen)
    rwa [(hname.trans hopen).depth] at hcall

theorem ReadsPrimitive.endsSolid
    (h : ReadsPrimitive lineComments (fun c _ rest => EndsSolid c rest) c v rest) :
    EndsSolid c rest := by
  cases h with
  | ofString h => exact h.endsSolid
  | ofColor hmark hhex his =>
    have hne : ∀ {t : List Char}, IsHex t → t ≠ [] := by
      rintro _ his rfl
      exact absurd his.length (by decide)
    exact (endsSolid_class isHexDigit_boundary hhex (hne his) his.digits).behind hmark
  | ofNumber h => exact h.endsSolid
  | ofUrl h =>
    cases h with
    | intro _ hopen haddress hafter hclose _ _ _ =>
      exact (endsSolid_mark hclose (by decide)).behind ((hopen.trans haddress).trans hafter)
  | ofCall _ _ h => exact h.endsSolid
  | ofVariable hmark hname his | ofProperty hmark hname his =>
    exact (endsSolid_name hname his).behind hmark
  | ofIdentifier _ hname his => exact endsSolid_name hname his

/-! ## Values -/

theorem ReadsSpaceList.endsSolid
    (h : ReadsSpaceList lineComments (fun c _ rest => EndsSolid c rest) c v rest) :
    EndsSolid c rest := by
  refine ReadsList.endsSolid (fun c v rest hslash => ReadsList.endsSolid ?_ hslash) h
  rintro c v rest ⟨mid, ⟨w, hw, -⟩, -, hprimitive⟩
  exact hprimitive.endsSolid.behind hw

/-- Values with the given number of levels left. -/
theorem valueAt_endsSolid (levels : Nat) :
    (valueAt s levels).Ensures fun c _ rest => EndsSolid c rest :=
  ensures_mono (valueAt_ensures (fun _ _ _ _ _ h => h.endsSolid) levels) fun _ _ _ _ _ h =>
    ReadsList.endsSolid (fun _ _ _ h => ReadsSpaceList.endsSolid h) h

end LessSyntax.Grammar
