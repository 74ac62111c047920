import LessSyntax.Proofs.NestingLimit

/-!
# Rules that read something

A rule advances when each of its matches goes on by a place at least. What is built from rules
advances as soon as its first part does. Items, values and names advance; the endings of items do
not, and neither do the repetitions.

* `Rule.Advances`: the rule matches only by reading something.
* `Rule.Advances.induction`: induction over the matches of such a rule.
* `stringLiteral_advances`, `primitiveOver_advances`, `simpleSelector_advances`,
  `blockOver_advances`, `itemAt_advances`: strings, values, selectors, blocks and items advance.
-/

namespace LessSyntax.Rule

variable {α β : Type} {rule : Rule α}

/-- Every match goes on by a place at least. -/
def Advances (rule : Rule α) : Prop := rule.Ensures fun c _ rest => c.pos < rest.pos

/-- Every match leads further on, or stays where it is. -/
abbrev Proceeds (rule : Rule α) : Prop := rule.Ensures fun _ _ _ => True

theorem Ensures.proceeds {post : Cursor → α → Cursor → Prop} (h : rule.Ensures post) :
    rule.Proceeds := ensures_mono h fun _ _ _ _ _ _ => trivial

theorem Advances.proceeds (h : rule.Advances) : rule.Proceeds := Ensures.proceeds h

/-- The rule cannot be run behind its own matches for ever, since the text ends. What holds at a
cursor as soon as it holds behind each match from there holds everywhere. -/
theorem Advances.induction {motive : (c : Cursor) → c.Within → Prop} (hrule : rule.Advances)
    (step : ∀ (c : Cursor) (hc : c.Within),
      (∀ v rest (hrest : rest.Within), rule c = .matched v rest → motive rest hrest) → motive c hc)
    (c : Cursor) (hc : c.Within) : motive c hc := by
  induction hroom : c.room using Nat.strongRecOn generalizing c with
  | ind room ih =>
    refine step c hc fun v rest hrest h => ?_
    obtain ⟨hreach, hpos⟩ := hrule c v rest hc h
    exact ih rest.room (hroom ▸ hreach.room_lt hc (by omega)) rest hrest rfl

theorem Advances.many_of_matched (hrule : rule.Advances) {c rest : Cursor} {v : α} (hc : c.Within)
    (h : rule c = .matched v rest) : many rule c = (many rule rest).map (v :: ·) := by
  have hpos := (hrule c v rest hc h).2
  exact Rule.many_of_matched hrule hc h (by omega)

theorem advances_bind {next : α → Rule β} (hrule : rule.Advances) (hnext : ∀ a, (next a).Proceeds) :
    Advances fun c => (rule c).bind next := by
  refine ensures_bind hrule hnext fun c _ mid _ rest _ hreach hpos _ => ?_
  have hle := hreach.pos_le
  omega

theorem advances_map {f : α → β} (hrule : rule.Advances) : (map f rule).Advances :=
  ensures_map hrule

theorem advances_choice {rules : List (Rule α)} {expected : Option String}
    (hrules : ∀ r ∈ rules, Advances r) : (choice rules expected).Advances :=
  ensures_choice hrules

theorem advances_cut {context : String} (hrule : rule.Advances) : (cut rule context).Advances :=
  ensures_cut hrule

theorem advances_both {second : Rule β} (hrule : rule.Advances) (hsecond : second.Proceeds) :
    (both rule second).Advances :=
  advances_bind hrule fun _ => ensures_map hsecond

theorem advances_terminated {after : Rule β} (hrule : rule.Advances) (hafter : after.Proceeds) :
    (terminated rule after).Advances :=
  advances_map (advances_both hrule hafter)

/-- Nothing has to be read before a rule that advances. -/
theorem advances_preceded {before : Rule β} (hbefore : before.Proceeds) (hrule : rule.Advances) :
    (preceded before rule).Advances := by
  refine ensures_preceded hbefore hrule fun c _ mid _ rest hreach _ _ hpos => ?_
  have hle := hreach.pos_le
  omega

theorem advances_many1 (hrule : rule.Advances) : (many1 rule).Advances :=
  advances_bind hrule fun _ => ensures_map (many_ensures hrule).proceeds

theorem advances_separated1 {separator : Rule β} {context : String} (hrule : rule.Advances)
    (hseparator : separator.Proceeds) : (separated1 rule separator context).Advances := by
  have hmore : ∀ bound, (separatedUpTo rule separator context bound).Proceeds :=
    ensures_separatedUpTo hrule hseparator (fun _ => trivial)
      fun _ _ _ _ _ _ _ _ _ _ _ _ _ => trivial
  exact advances_bind hrule fun _ => ensures_map fun c => hmore c.room c

theorem literal_advances {chars : List Char} (hne : chars ≠ []) : (literal chars).Advances := by
  refine ensures_literal hne fun c rest _ hreads => ?_
  have hpos := hreads.pos
  have hlength := List.length_pos_iff.mpr hne
  omega

end LessSyntax.Rule

namespace LessSyntax

theorem ReadsAll.pos_le {α : Type} {P : Cursor → α → Cursor → Prop}
    (hP : ∀ c a rest, P c a rest → c.pos ≤ rest.pos) {c rest : Cursor} {as : List α}
    (h : ReadsAll P c as rest) : c.pos ≤ rest.pos := by
  induction h with
  | nil => exact Int.le_refl _
  | cons hfirst _ ih => exact Int.le_trans (hP _ _ _ hfirst) ih

end LessSyntax

namespace LessSyntax.Grammar

open Rule

variable {α : Type} {s : Settings} {rule : Rule α}

theorem token_advances (hrule : rule.Advances) : (token s rule).Advances := by
  refine ensures_token hrule fun c mid _ rest hreach _ _ hpos => ?_
  have hle := hreach.pos_le
  omega

theorem symbol_proceeds {chars : List Char} (hne : chars ≠ []) : (symbol s chars).Proceeds :=
  (symbol_ensures hne).proceeds

/-! ## Names and selectors -/

theorem ReadsName.advances {c rest : Cursor} {t : Text} (h : ReadsName c t rest) :
    c.pos < rest.pos := by
  obtain ⟨cs, hreads, his, -⟩ := h
  have hpos := hreads.pos
  have hlength := List.length_pos_iff.mpr his.ne_nil
  omega

theorem name_advances : name.Advances :=
  ensures_mono name_reads fun _ _ _ _ _ h => h.advances

theorem atName_advances : atName.Advances := by
  apply ensures_mono atName_reads
  rintro c t rest - - ⟨start, hmark, hname⟩
  have hpos := hname.advances
  have hstart := hmark.pos
  omega

theorem nameAfter_advances {chars : List Char} (hne : chars ≠ []) : (nameAfter chars).Advances :=
  advances_preceded (literal_advances hne).proceeds name_advances

theorem ReadsSelector.advances {c rest : Cursor} {selector : Selector}
    (h : ReadsSelector c selector rest) : c.pos < rest.pos := by
  cases h with
  | byId hmark hname his | byClass hmark hname his =>
    have hpos := hname.pos
    have hstart := hmark.pos
    simp only [List.length_singleton] at hstart
    omega
  | byType hname his => exact ReadsName.advances ⟨_, hname, his, rfl⟩
  | universal hmark =>
    have hstart := hmark.pos
    simp only [List.length_singleton] at hstart
    omega

theorem mixinStep_advances : mixinStep.Advances :=
  ensures_mono mixinStep_ensures fun _ _ _ _ _ h => h.advances

theorem simpleSelector_advances : (simpleSelector s).Advances := by
  apply ensures_mono simpleSelector_ensures
  rintro c a rest - - ⟨mid, ⟨u, hu, -⟩, -, hread⟩
  have hpos := hread.advances
  have hle := hu.pos
  omega

theorem idSelector_advances : idSelector.Advances :=
  advances_map (nameAfter_advances (by simp))

theorem classSelector_advances : classSelector.Advances :=
  advances_map (nameAfter_advances (by simp))

theorem typeSelector_advances : typeSelector.Advances := advances_map name_advances

theorem universalSelector_advances : universalSelector.Advances :=
  advances_map (literal_advances (by simp))

theorem selectorGroup_advances : (selectorGroup s).Advances :=
  advances_separated1 simpleSelector_advances (symbol_proceeds (by simp))

theorem mixinJoint_advances : (mixinJoint s).Advances :=
  advances_preceded (ensures_opt (symbol_proceeds (by simp)) fun _ => trivial)
    (token_advances mixinStep_advances)

theorem mixinPath_advances : (mixinPath s).Advances :=
  advances_map (advances_both (token_advances mixinStep_advances)
    (many_ensures mixinJoint_advances).proceeds)

/-! ## Strings -/

theorem ReadsString.advances {c rest : Cursor} {v : Value} (h : ReadsString c v rest) :
    c.pos < rest.pos := by
  cases h with
  | plain _ hopen hsegment hclose _ =>
    have hopened := hopen.pos
    have hclosed := hsegment.pos
    have hrest := hclose.pos
    simp only [List.length_singleton] at hopened
    omega
  | interpolated _ hopen hsegment hparts hclose _ _ =>
    have hopened := hopen.pos
    have hmid := hsegment.pos
    have hclosed := hparts.reaches.pos_le
    have hrest := hclose.pos
    simp only [List.length_singleton] at hopened
    omega

theorem ReadsInterpolation.advances {c rest : Cursor} {i : Interpolation}
    (h : ReadsInterpolation c i rest) : c.pos < rest.pos := by
  cases h with
  | ofVariable hopen hname hclose | ofProperty hopen hname hclose =>
    have hopened := hopen.pos
    have hnamed := hname.pos
    have hclosed := hclose.pos
    simp only [List.length_cons, List.length_nil] at hopened hclosed
    omega

theorem interpolation_advances : interpolation.Advances :=
  ensures_mono interpolation_ensures fun _ _ _ _ _ h => h.advances

section

variable {quote : Quote} {q : Char} (hq : Mark quote q)
include hq

theorem stringPart_advances : (stringPart quote).Advances := by
  refine ensures_mono (stringPart_ensures hq) ?_
  rintro c ⟨i, text⟩ rest - - ⟨mid, t, hpart, hsegment, -⟩
  have hmid := hpart.advances
  have hrest := hsegment.pos
  omega

theorem stringParts_advances : (stringParts quote).Advances :=
  advances_terminated (advances_many1 (stringPart_advances hq)) (quoteMark_ensures hq).proceeds

theorem stringLiteral_advances : (stringLiteral quote).Advances :=
  ensures_mono (stringLiteral_ensures hq) fun _ _ _ _ _ h => h.advances

end

theorem quotedString_advances : quotedString.Advances :=
  ensures_mono quotedString_ensures fun _ _ _ _ _ h => h.advances

/-! ## Values -/

theorem color_advances : color.Advances := by
  intro c v rest hc h
  obtain ⟨t, hmark, hdigits, -, -⟩ := color_matched hc h
  have hstart := hmark.pos
  have hrest := hdigits.pos
  simp only [List.length_singleton] at hstart
  exact ⟨⟨_, hmark.trans hdigits⟩, by omega⟩

theorem ReadsNumber.advances {c rest : Cursor} {v : Value} (h : ReadsNumber c v rest) :
    c.pos < rest.pos := by
  cases h with
  | plain hvalue htext =>
    have hrest := hvalue.pos
    have hlength := List.length_pos_iff.mpr htext.value_ne_nil
    omega
  | withUnit hvalue hunit _ htext =>
    have hmid := hvalue.pos
    have hrest := hunit.pos
    have hlength := List.length_pos_iff.mpr htext.value_ne_nil
    omega

theorem number_advances : number.Advances := fun _ _ _ hc h =>
  ⟨(number_matched hc h).reaches, (number_matched hc h).advances⟩

theorem ReadsUrl.advances {c rest : Cursor} {v : Value} (h : ReadsUrl c v rest) :
    c.pos < rest.pos := by
  cases h with
  | intro _ hopen haddress hafter hclose _ _ _ =>
    have hstart := hopen.pos
    have hstop := haddress.pos
    have hclosed := hafter.pos
    have hrest := hclose.pos
    simp only [List.length_singleton] at hrest
    omega

theorem url_advances : url.Advances :=
  ensures_mono url_ensures fun _ _ _ _ _ h => h.advances

variable {lineComments : Bool} {P : Cursor → Value → Cursor → Prop}

theorem ReadsCall.advances {c rest : Cursor} {v : Value} (h : ReadsCall lineComments P c v rest) :
    c.pos < rest.pos := by
  cases h with
  | @intro _ opened _ _ _ hname hopen _ _ hreach =>
    have hnamed := hname.pos
    have hopened := hopen.pos
    have hlt : c.pos < opened.nested.pos := by
      show c.pos < opened.pos
      simp only [List.length_singleton] at hopened
      omega
    exact Int.lt_of_lt_of_le hlt hreach.pos_le

theorem ReadsPrimitive.advances {c rest : Cursor} {v : Value}
    (h : ReadsPrimitive lineComments P c v rest) : c.pos < rest.pos := by
  cases h with
  | ofString h => exact h.advances
  | ofNumber h => exact h.advances
  | ofUrl h => exact h.advances
  | ofCall _ _ h => exact h.advances
  | ofIdentifier _ hname his => exact ReadsName.advances ⟨_, hname, his, rfl⟩
  | ofColor hmark hread _ | ofVariable hmark hread _ | ofProperty hmark hread _ =>
    have hstart := hmark.pos
    have hrest := hread.pos
    simp only [List.length_singleton] at hstart
    omega

section

variable {inner? : Option (Rule Value)} (hinner : ∀ argument ∈ inner?, Proceeds argument)
include hinner

theorem callOver_advances : (callOver s inner?).Advances :=
  ensures_mono (callOver_ensures hinner) fun _ _ _ _ _ h => h.advances

theorem primitiveOver_advances : (primitiveOver s inner?).Advances := by
  apply ensures_mono (primitive_ensures hinner)
  rintro c v rest - - ⟨mid, ⟨u, hu, -⟩, -, hread⟩
  have hpos := hread.advances
  have hle := hu.pos
  omega

theorem slashListOver_advances : (slashListOver s inner?).Advances :=
  advances_map (advances_separated1 (primitiveOver_advances hinner) (symbol_proceeds (by simp)))

theorem spaceListOver_advances : (spaceListOver s inner?).Advances :=
  advances_map (advances_many1 (slashListOver_advances hinner))

theorem commaListOver_advances : (commaListOver s inner?).Advances :=
  advances_map (advances_separated1 (spaceListOver_advances hinner) (symbol_proceeds (by simp)))

end

theorem argument?_proceeds (levels : Nat) : ∀ argument ∈ argument? s levels, Proceeds argument :=
  argument?_ensures (fun _ _ _ _ _ _ => trivial) levels

theorem valueAt_advances (levels : Nat) : (valueAt s levels).Advances :=
  commaListOver_advances (argument?_proceeds levels)

/-! ## Blocks -/

theorem emptyParens_advances : (emptyParens s).Advances :=
  advances_both (symbol_advances (by simp)) (symbol_proceeds (by simp))

theorem closeBlock_advances : (closeBlock s).Advances := by
  refine advances_choice fun r hr => ?_
  simp only [List.mem_cons, List.not_mem_nil, or_false] at hr
  subst hr
  exact symbol_advances (by simp)

/-- What stands between the braces does not lead back. -/
theorem ReadsBlock.advances {lineComments : Bool} {P : Cursor → Item → Cursor → Prop}
    (hP : ∀ c item rest, P c item rest → c.pos ≤ rest.pos) {c rest : Cursor} {found : List Item}
    (h : ReadsBlock lineComments P c found rest) : c.pos < rest.pos := by
  cases h with
  | @intro opened stop closed _ hopen hitems hclose =>
    have hopened := hopen.advances (by simp)
    have hinside : opened.pos ≤ stop.pos := hitems.pos_le hP
    have hclosed : stop.pos < closed.pos := hclose.advances (by simp)
    show c.pos < closed.pos
    omega

/-! ## Items -/

/-- The value of a declaration is read before what may be missing. -/
theorem declarationEnd_advances (levels : Nat) :
    (both (valueAt s levels) (terminated (important s) (terminator s))).Advances :=
  advances_both (valueAt_advances levels) (ensures_terminated important_ensures
    terminator_ensures.proceeds fun _ _ _ _ _ _ _ _ _ => trivial)

theorem declarationAt_advances (levels : Nat) : (declarationAt s levels).Advances :=
  advances_bind (advances_terminated (token_advances name_advances) (symbol_proceeds (by simp)))
    fun _ => ensures_map (ensures_cut (declarationEnd_advances levels).proceeds)

theorem mixinCall_advances : (mixinCall s).Advances :=
  advances_map (advances_terminated (advances_terminated mixinPath_advances
    emptyParens_ensures.proceeds) (ensures_cut terminator_ensures.proceeds))

theorem variableCall_advances : (variableCall s).Advances :=
  advances_map (advances_terminated (advances_terminated (token_advances atName_advances)
    emptyParens_ensures.proceeds) (ensures_cut terminator_ensures.proceeds))

section

variable {levels : Nat} {inner? : Option (Rule Item)} (hinner : ∀ inner ∈ inner?, Proceeds inner)
include hinner

theorem blockOver_advances : (blockOver s inner?).Advances :=
  ensures_mono (blockOver_ensures fun inner hmem =>
    ensures_mono (hinner inner hmem) fun _ _ _ _ hreach _ => hreach.pos_le)
    fun _ _ _ _ _ h => h.advances fun _ _ _ hle => hle

theorem qualifiedRuleOver_advances : (qualifiedRuleOver s inner?).Advances :=
  advances_map (advances_both selectorGroup_advances (blockOver_advances hinner).proceeds)

theorem mixinDeclarationOver_advances : (mixinDeclarationOver s inner?).Advances :=
  advances_map (advances_both (advances_terminated (token_advances
    (advances_map mixinStep_advances)) emptyParens_ensures.proceeds)
    (blockOver_advances hinner).proceeds)

theorem variableValueOver_advances : (variableValueOver s levels inner?).Advances := by
  refine advances_choice fun r hr => ?_
  simp only [List.mem_cons, List.not_mem_nil, or_false] at hr
  rcases hr with rfl | rfl
  · exact advances_map (blockOver_advances hinner)
  · exact valueAt_advances levels

theorem variableDeclarationOver_advances : (variableDeclarationOver s levels inner?).Advances :=
  advances_bind (advances_terminated (token_advances atName_advances) (symbol_proceeds (by simp)))
    fun _ => ensures_bind (Q := fun _ _ _ _ => True)
      (ensures_cut (variableValueOver_advances hinner).proceeds)
      (fun v => ensures_map (ensures_cut (variableEnd_ensures v).proceeds))
      fun _ _ _ _ _ _ _ _ _ => trivial

theorem itemOver_advances : (itemOver s levels inner?).Advances := by
  refine advances_choice fun r hr => ?_
  simp only [List.mem_cons, List.not_mem_nil, or_false] at hr
  rcases hr with rfl | rfl | rfl | rfl | rfl | rfl
  · exact mixinDeclarationOver_advances hinner
  · exact declarationAt_advances levels
  · exact mixinCall_advances
  · exact qualifiedRuleOver_advances hinner
  · exact variableDeclarationOver_advances hinner
  · exact variableCall_advances

end

theorem innerItem?_proceeds (levels : Nat) :
    ∀ inner ∈ innerItem? s levels, Proceeds inner :=
  innerItem?_ensures (fun levels => valueAt_advances levels) (fun _ _ _ _ _ _ => trivial) levels

theorem itemAt_advances (levels : Nat) : (itemAt s levels).Advances :=
  itemOver_advances (innerItem?_proceeds levels)

end LessSyntax.Grammar
