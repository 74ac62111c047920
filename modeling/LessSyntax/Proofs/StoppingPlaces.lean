import LessSyntax.Proofs.Halting
import LessSyntax.Proofs.ItemViability
import LessSyntax.Proofs.StringGrammar

/-!
# Where the grammar stops

Tokens are looked for behind trivia, so that no blank stands where one is missed. There are few
exceptions. A mark that has to have a name behind it is read first, and the name is missed right
behind it. Inside strings and addresses trivia is not skipped: these end at a newline, and an
interpolation at anything that does not belong to it.

* `MayMiss`, `MayFail`: where rules of the grammar may miss or fail.
* `InPlace`: a rule stops nowhere else.
* `quotedString_inPlace`, `valueAt_inPlace`, `selectorGroup_inPlace`, `itemAt_inPlace`: strings,
  values, selectors and items.
-/

namespace LessSyntax.Grammar

open Rule

/-! ## Places -/

/-- The marks that are read before the name behind them is looked for. -/
def loneMarks : List Char := ['#', '.', '$']

/-- No blank stands at the place. -/
def AtText (place : Cursor) : Prop := ∀ x ∈ place.ahead.head?, isBlank x = false

/-- One of the marks stands right before the place. -/
def BehindMark (place : Cursor) : Prop :=
  ∃ before : Cursor, ∃ x ∈ loneMarks, before.Within ∧ before.Reads [x] place

/-- Where a rule may miss. -/
def MayMiss (place : Cursor) : Prop := AtText place ∨ BehindMark place

/-- The rules that a newline ends. -/
def lineRules : List String := ["string", "url"]

/-- Where a rule may fail, and under which name. -/
inductive MayFail (place : Cursor) : String → Prop
  | asMiss {blamed : String} (h : MayMiss place) : MayFail place blamed
  | interpolation : MayFail place "string interpolation"
  | newline {blamed : String} (hblamed : blamed ∈ lineRules)
    (h : place.ahead.head? = some '\n') : MayFail place blamed

/-- From the given places on, the rule misses and fails where it may. -/
abbrev InPlace {α : Type} (rule : Rule α) (start : Cursor → Prop) : Prop :=
  rule.Halts start MayMiss MayFail

variable {α : Type} {s : Settings} {start miss : Cursor → Prop} {rule : Rule α} {c : Cursor}

theorem AtText.mayFail (h : AtText c) (blamed : String) : MayFail c blamed := .asMiss (.inl h)

theorem atText_of_startsWith {x : Char} {cs : List Char} (hx : isBlank x = false)
    (h : c.startsWith (x :: cs) = true) : AtText c := by
  obtain ⟨k, hk⟩ := (Cursor.startsWith_iff (List.cons_ne_nil x cs)).mp h
  intro y hy
  rw [hk] at hy
  cases hy
  exact hx

theorem atText_of_reads {x : Char} {rest : Cursor} (hx : isBlank x = false)
    (h : c.Reads [x] rest) : AtText c := by
  intro y hy
  rw [h.ahead] at hy
  cases hy
  exact hx

/-- A rule that stops only where it starts does so at a text. -/
theorem inPlace_here (hstops : ∀ {c place}, c.Within → (rule c).StopsAt place → place = c) :
    InPlace rule AtText :=
  halts_here hstops (fun _ => .inl) fun _ blamed h => h.mayFail blamed

/-! ## Trivia and tokens -/

/-- A comment without an end is named where it begins. -/
theorem blockComment_halts : blockComment.Halts start Cursor.Anywhere MayFail := by
  intro c hc _
  unfold blockComment
  split
  · rename_i hopen
    dsimp only
    split
    · trivial
    · exact (atText_of_startsWith (by decide) hopen).mayFail "comment"
  · trivial

theorem triviaUnit_halts : (triviaUnit s).Halts start Cursor.Anywhere MayFail := by
  have hblanks : blanks.Halts start Cursor.Anywhere MayFail := by
    intro c hc _
    unfold blanks
    split <;> trivial
  have hline : lineComment.Halts start Cursor.Anywhere MayFail := by
    intro c hc _
    unfold lineComment
    split <;> trivial
  have hrules := triviaUnit_forall (s := s)
    (p := fun r => r.Halts start Cursor.Anywhere MayFail) hblanks blockComment_halts fun _ => hline
  unfold triviaUnit
  split <;> rename_i hallowed
  · rw [if_pos hallowed] at hrules
    exact halts_choice hrules
  · rw [if_neg hallowed] at hrules
    exact halts_choice hrules

theorem trivia_halts : (trivia s).Halts start miss MayFail :=
  halts_map (halts_many triviaUnit_halts triviaUnit_advances.proceeds)

theorem trivia_atText : (trivia s).Ensures fun _ _ rest => AtText rest :=
  fun c v rest hc h => ⟨(trivia_ensures c v rest hc h).1, (trivia_maximal hc h).blank⟩

/-- Behind trivia stands a text. -/
theorem token_inPlace (hrule : InPlace rule AtText) : InPlace (token s rule) start :=
  halts_bind trivia_halts trivia_atText fun _ => hrule

theorem symbol_inPlace (chars : List Char) : InPlace (symbol s chars) start :=
  token_inPlace (inPlace_here fun _ => literal_stops)

theorem name_inPlace : InPlace name AtText := inPlace_here fun _ => scan_stops

theorem atName_inPlace : InPlace atName AtText := inPlace_here fun _ => atName_stops

/-- A name that is missing is missed behind its mark. -/
theorem nameAfter_inPlace {mark : Char} (hmark : mark ∈ loneMarks) :
    InPlace (nameAfter [mark]) AtText := by
  have hbehind : (literal [mark]).Ensures fun _ _ rest => BehindMark rest :=
    ensures_literal (List.cons_ne_nil mark []) fun c rest hc hreads => ⟨c, mark, hmark, hc, hreads⟩
  have hname : InPlace name BehindMark :=
    halts_here (fun _ => scan_stops) (fun _ => .inr) fun _ _ h => .asMiss (.inr h)
  exact halts_preceded (inPlace_here fun _ => literal_stops) hbehind hname

/-! ## Strings -/

/-- A segment that is not closed goes up to a newline or to the end. -/
theorem segmentEnd_error_newline {quote : Quote} {pos count : Nat} {cs : List Char}
    (h : segmentEnd quote pos cs = .error count) :
    pos ≤ count ∧ ∀ x ∈ (cs.drop (count - pos)).head?, x = '\n' := by
  fun_induction segmentEnd quote pos cs with
  | case1 pos =>
    cases h
    exact ⟨Nat.le_refl _, by simp⟩
  | case2 => cases h
  | case3 pos c =>
    cases h
    exact ⟨by omega, by simp⟩
  | case4 pos c _ d ds _ ih =>
    obtain ⟨hle, hhead⟩ := ih h
    have hdrop : (c :: d :: ds).drop (count - pos) = ds.drop (count - (pos + 2)) := by
      rw [show count - pos = count - (pos + 2) + 2 by omega]
      rfl
    rw [hdrop]
    exact ⟨by omega, hhead⟩
  | case5 pos c cs _ _ hline =>
    cases h
    refine ⟨Nat.le_refl _, fun x hx => ?_⟩
    rw [Nat.sub_self] at hx
    cases hx
    exact beq_iff_eq.mp hline
  | case6 pos c cs _ _ _ ih =>
    obtain ⟨hle, hhead⟩ := ih h
    have hdrop : (c :: cs).drop (count - pos) = cs.drop (count - (pos + 1)) := by
      rw [show count - pos = count - (pos + 1) + 1 by omega]
      rfl
    rw [hdrop]
    exact ⟨by omega, hhead⟩

/-- At the end of the text no blank stands either. -/
theorem mayFail_newline {blamed : String} (hblamed : blamed ∈ lineRules)
    (h : ∀ x ∈ c.ahead.head?, isBlank x = true → x = '\n') : MayFail c blamed := by
  cases hhead : c.ahead.head? with
  | none =>
    refine AtText.mayFail (fun x hx => ?_) blamed
    rw [hhead] at hx
    cases hx
  | some x =>
    cases hblank : isBlank x with
    | false =>
      refine AtText.mayFail (fun y hy => ?_) blamed
      rw [hhead] at hy
      cases hy
      exact hblank
    | true =>
      rw [h x hhead hblank] at hhead
      exact .newline hblamed hhead

theorem segment_halts (quote : Quote) : (segment quote).Halts start miss MayFail := by
  intro c hc _
  rw [segment_eq hc.1]
  cases hend : segmentEnd quote 0 c.ahead with
  | ok count => trivial
  | error count =>
    obtain ⟨-, hhead⟩ := segmentEnd_error_newline hend
    refine mayFail_newline (by decide) fun x hx _ => hhead x ?_
    rw [clamped_advance hc, Cursor.ahead_advance hc.1] at hx
    rw [Nat.sub_zero]
    by_cases hle : count ≤ c.ahead.length
    · rw [Nat.min_eq_left hle] at hx
      exact hx
    · rw [Nat.min_eq_right (by omega), List.drop_length] at hx
      cases hx

section

variable {quote : Quote} {q : Char}

theorem stringPart_halts : (stringPart quote).Halts start Cursor.Anywhere MayFail := by
  have hcut : (cut interpolation "string interpolation").Halts Cursor.Anywhere Cursor.Anywhere
      MayFail :=
    halts_cut (halts_of_blames_nil interpolation_blames) fun _ _ => .interpolation
  have hproceeds : (cut interpolation "string interpolation").Proceeds :=
    ensures_cut interpolation_ensures.proceeds
  have hboth := halts_both hcut hproceeds (segment_halts quote)
  intro c hc _
  unfold stringPart
  split
  · trivial
  · exact hboth c hc trivial

variable (hq : Mark quote q)
include hq

theorem stringParts_halts : (stringParts quote).Halts Cursor.Anywhere Cursor.Anywhere MayFail :=
  halts_terminated (halts_many1 stringPart_halts (stringPart_advances hq).proceeds)
    (advances_many1 (stringPart_advances hq)).proceeds
    (halts_of_blames_nil (quoteMark_blames quote))

/-- A string misses only where it would begin. -/
theorem stringLiteral_inPlace : InPlace (stringLiteral quote) AtText := by
  have hmark : InPlace (quoteMark quote) AtText := by
    refine inPlace_here fun {c place} hc hstop => ?_
    unfold quoteMark at hstop
    split at hstop <;> cases hstop
    rfl
  have hopened : (preceded (quoteMark quote) (segment quote)).Proceeds :=
    ensures_preceded (quoteMark_ensures hq).proceeds (segment_ensures hq).proceeds
      fun _ _ _ _ _ _ _ _ _ => trivial
  refine halts_bind (halts_preceded hmark (quoteMark_ensures hq).proceeds (segment_halts quote))
    hopened fun first => ?_
  intro c hc _
  dsimp only
  split
  · trivial
  · rename_i hstarts
    exact (halts_of_commits (stringParts_halts hq c hc trivial)
      (stringParts_commits hq hc (Bool.eq_false_iff.mpr hstarts))).map

end

theorem quotedString_inPlace : InPlace quotedString AtText := by
  refine halts_choice fun r hr => ?_
  simp only [List.mem_cons, List.not_mem_nil, or_false] at hr
  rcases hr with rfl | rfl
  · exact stringLiteral_inPlace .double
  · exact stringLiteral_inPlace .single

/-! ## Addresses -/

/-- The newline is the only blank that an address cannot hold. -/
theorem eq_newline_of_blank {x : Char} (hblank : isBlank x = true) (hx : isAddressChar x = false) :
    x = '\n' := by
  simp only [isBlank, Bool.or_eq_true, beq_iff_eq] at hblank
  rcases hblank with (((rfl | rfl) | rfl) | rfl) | rfl
  · cases hx
  · rfl
  · cases hx
  · cases hx
  · cases hx

theorem url_inPlace : InPlace url AtText := by
  intro c hc htext
  unfold url
  split
  · have hopened : 0 ≤ (c.advance 4).pos := by
      have hpos := hc.1
      rw [Cursor.pos_advance]
      omega
    dsimp only
    generalize c.advance 4 = opened at hopened
    have hstart : 0 ≤ (opened.advance (opened.onward.takeWhile isBlank).length).pos := by
      rw [Cursor.pos_advance]
      omega
    generalize opened.advance (opened.onward.takeWhile isBlank).length = start at hstart
    split
    · exact .inl htext
    · split
      · trivial
      · refine mayFail_newline (by decide) fun x hx hblank => eq_newline_of_blank hblank ?_
        rw [Cursor.ahead_advance hstart, Cursor.onward_eq hstart] at hx
        exact isAddressChar_head?_drop start.ahead x hx
  · exact .inl htext

/-! ## Values -/

section

variable {inner? : Option (Rule Value)}
  (hinner : ∀ argument ∈ inner?, InPlace argument Cursor.Anywhere)
  (hproceeds : ∀ argument ∈ inner?, Proceeds argument)
include hinner hproceeds

theorem arguments_inPlace {argument : Rule Value} (hargument : argument ∈ inner?) :
    InPlace (arguments s argument) start := by
  have hadvances : (symbol s [',']).Advances := token_advances (literal_advances (by simp))
  have hlist : InPlace (separated1 argument (symbol s [',']) "function") start :=
    halts_separated1 (hinner _ hargument) (symbol_inPlace _) (hproceeds _ hargument) hadvances
      fun _ => .asMiss
  have hopt : (opt (separated1 argument (symbol s [',']) "function")).Proceeds :=
    ensures_opt (separated1_ensures (by simp) (hproceeds _ hargument)).proceeds fun _ => trivial
  exact halts_map (halts_cut (halts_terminated (halts_opt hlist) hopt (symbol_inPlace _))
    fun _ => .asMiss)

theorem callOver_inPlace : InPlace (callOver s inner?) AtText := by
  intro c hc htext
  unfold callOver
  split
  · rename_i callee rest hname
    split
    · rename_i hopen
      have hrest := (name_advances c callee rest hc hname).1.within hc
      cases inner? with
      | none => exact (atText_of_startsWith (by decide) hopen).mayFail "function"
      | some argument =>
        have hopened := (Cursor.Reads.of_startsWith hrest hopen).within hrest
        have harguments : InPlace (arguments s argument) Cursor.Anywhere :=
          arguments_inPlace hinner hproceeds rfl
        exact (harguments _ hopened.nested trivial).bind fun _ _ _ => trivial
    · exact .inl htext
  · exact .inl htext

theorem primitiveOver_inPlace : InPlace (primitiveOver s inner?) start := by
  refine token_inPlace (halts_choice fun r hr => ?_)
  simp only [List.mem_cons, List.not_mem_nil, or_false] at hr
  rcases hr with rfl | rfl | rfl | rfl | rfl | rfl | rfl | rfl
  · exact quotedString_inPlace
  · exact inPlace_here fun _ => color_stops
  · exact inPlace_here number_stops
  · exact url_inPlace
  · exact callOver_inPlace hinner hproceeds
  · exact halts_map atName_inPlace
  · exact halts_map (nameAfter_inPlace (by decide))
  · exact halts_map name_inPlace

theorem slashListOver_inPlace : InPlace (slashListOver s inner?) start :=
  halts_map (halts_separated1 (primitiveOver_inPlace hinner hproceeds) (symbol_inPlace _)
    (primitiveOver_advances hproceeds).proceeds (token_advances (literal_advances (by simp)))
    fun _ => .asMiss)

theorem spaceListOver_inPlace : InPlace (spaceListOver s inner?) start :=
  halts_map (halts_many1 (slashListOver_inPlace hinner hproceeds)
    (slashListOver_advances hproceeds).proceeds |>.mono_start fun _ _ => trivial)

theorem commaListOver_inPlace : InPlace (commaListOver s inner?) start :=
  halts_map (halts_separated1 (spaceListOver_inPlace hinner hproceeds) (symbol_inPlace _)
    (spaceListOver_advances hproceeds).proceeds (token_advances (literal_advances (by simp)))
    fun _ => .asMiss)

end

theorem argument?_inPlace (levels : Nat) :
    ∀ argument ∈ argument? s levels, InPlace argument Cursor.Anywhere := by
  induction levels with
  | zero =>
    intro argument h
    cases h
  | succ levels ih =>
    intro argument h
    cases h
    exact spaceListOver_inPlace ih (argument?_proceeds levels)

theorem valueAt_inPlace (levels : Nat) : InPlace (valueAt s levels) start :=
  commaListOver_inPlace (argument?_inPlace levels) (argument?_proceeds levels)

/-! ## Selectors -/

theorem mixinStep_inPlace : InPlace mixinStep AtText := by
  refine halts_choice fun r hr => ?_
  simp only [List.mem_cons, List.not_mem_nil, or_false] at hr
  rcases hr with rfl | rfl
  · exact halts_map (nameAfter_inPlace (by decide))
  · exact halts_map (nameAfter_inPlace (by decide))

theorem simpleSelector_inPlace : InPlace (simpleSelector s) start := by
  refine token_inPlace (halts_choice fun r hr => ?_)
  simp only [List.mem_cons, List.not_mem_nil, or_false] at hr
  rcases hr with rfl | rfl | rfl | rfl
  · exact halts_map (nameAfter_inPlace (by decide))
  · exact halts_map (nameAfter_inPlace (by decide))
  · exact halts_map name_inPlace
  · exact halts_map (inPlace_here fun _ => literal_stops)

theorem selectorGroup_inPlace : InPlace (selectorGroup s) start :=
  halts_separated1 simpleSelector_inPlace (symbol_inPlace _) simpleSelector_advances.proceeds
    (token_advances (literal_advances (by simp))) fun _ => .asMiss

theorem mixinPath_inPlace : InPlace (mixinPath s) start := by
  have hopt : (opt (symbol s ['>'])).Proceeds :=
    ensures_opt (symbol_proceeds (by simp)) fun _ => trivial
  have hjoint : InPlace (mixinJoint s) Cursor.Anywhere :=
    halts_preceded (halts_opt (symbol_inPlace _)) hopt (token_inPlace mixinStep_inPlace)
  have hmore : InPlace (many (mixinJoint s)) Cursor.Anywhere :=
    halts_many hjoint mixinJoint_advances.proceeds
  exact halts_map (halts_both (token_inPlace mixinStep_inPlace)
    (token_advances mixinStep_advances).proceeds hmore)

/-! ## Endings -/

theorem endOf_inPlace (expected : String) : InPlace (endOf expected) AtText :=
  inPlace_here fun _ => endOf_stops

theorem terminator_inPlace : InPlace (terminator s) start := by
  refine halts_choice fun r hr => ?_
  simp only [List.mem_cons, List.not_mem_nil, or_false] at hr
  rcases hr with rfl | rfl | rfl
  · exact halts_map (symbol_inPlace _)
  · exact halts_map (halts_peek (symbol_inPlace _))
  · exact halts_map (token_inPlace (endOf_inPlace _))

theorem important_inPlace : InPlace (important s) start := by
  have hopt : (opt (symbol s ['!'])).Proceeds :=
    ensures_opt (symbol_proceeds (by simp)) fun _ => trivial
  have hmark : InPlace (symbol s ['!']) start := symbol_inPlace _
  refine halts_bind (halts_opt hmark) hopt fun mark => ?_
  cases mark with
  | none => exact fun c _ _ => trivial
  | some _ =>
    have hword : InPlace importantMark AtText := inPlace_here fun _ => importantMark_stops
    exact halts_bind trivia_halts trivia_atText fun _ => hword

theorem emptyParens_inPlace : InPlace (emptyParens s) start :=
  halts_both (symbol_inPlace _) (symbol_proceeds (by simp)) (symbol_inPlace _)

theorem closeBlock_inPlace : InPlace (closeBlock s) start := by
  refine halts_choice fun r hr => ?_
  obtain rfl := List.mem_singleton.mp hr
  exact symbol_inPlace _

/-! ## Items -/

theorem declarationAt_inPlace (levels : Nat) : InPlace (declarationAt s levels) start := by
  have hnamed : (terminated (token s name) (symbol s [':'])).Proceeds :=
    (advances_terminated (token_advances name_advances) (symbol_proceeds (by simp))).proceeds
  have hbefore : InPlace (terminated (token s name) (symbol s [':'])) start :=
    halts_terminated (token_inPlace name_inPlace) (token_advances name_advances).proceeds
      (symbol_inPlace _)
  have hvalued : InPlace (both (valueAt s levels) (terminated (important s) (terminator s)))
      Cursor.Anywhere :=
    halts_both (valueAt_inPlace levels) (valueAt_advances levels).proceeds
      (halts_terminated important_inPlace important_ensures.proceeds terminator_inPlace)
  exact halts_bind hbefore hnamed fun _ => halts_map (halts_cut hvalued fun _ => .asMiss)

theorem mixinCall_inPlace : InPlace (mixinCall s) start := by
  have hcalled : InPlace (terminated (mixinPath s) (emptyParens s)) start :=
    halts_terminated mixinPath_inPlace mixinPath_advances.proceeds emptyParens_inPlace
  exact halts_map (halts_terminated hcalled
    (advances_terminated mixinPath_advances emptyParens_ensures.proceeds).proceeds
    (halts_cut terminator_inPlace fun _ => .asMiss))

theorem variableCall_inPlace : InPlace (variableCall s) start := by
  have hname := token_advances (s := s) atName_advances
  have hcalled : InPlace (terminated (token s atName) (emptyParens s)) start :=
    halts_terminated (token_inPlace atName_inPlace) hname.proceeds emptyParens_inPlace
  exact halts_map (halts_terminated hcalled
    (advances_terminated hname emptyParens_ensures.proceeds).proceeds
    (halts_cut terminator_inPlace fun _ => .asMiss))

theorem variableEnd_inPlace (v : Value) : InPlace (variableEnd s v) start := by
  unfold variableEnd
  split
  · exact halts_opt (symbol_inPlace _)
  · exact terminator_inPlace

section

variable {inner? : Option (Rule Item)} (hinner : ∀ inner ∈ inner?, InPlace inner Cursor.Anywhere)
  (hproceeds : ∀ inner ∈ inner?, Proceeds inner)
include hinner hproceeds

/-- A block that is one level too deep is named at its brace. -/
theorem blockOver_inPlace : InPlace (blockOver s inner?) start := by
  intro c hc _
  unfold blockOver
  have hsymbol : InPlace (symbol s ['{']) Cursor.Anywhere := symbol_inPlace _
  refine (hsymbol c hc trivial).bind fun t rest hsymbol => ?_
  obtain ⟨hreach, mid, -, hbrace⟩ := symbol_ensures (by simp) c t rest hc hsymbol
  cases inner? with
  | none =>
    rw [hbrace.back_one]
    exact (atText_of_reads (by decide) hbrace).mayFail "block"
  | some inner =>
    have hitems : InPlace (terminated (many inner) (closeBlock s)) Cursor.Anywhere :=
      halts_terminated (halts_many (hinner inner rfl) (hproceeds inner rfl))
        (many_ensures (hproceeds inner rfl)).proceeds closeBlock_inPlace
    have hcommitted : InPlace (cut (terminated (many inner) (closeBlock s)) "block")
        Cursor.Anywhere := halts_cut hitems fun _ => .asMiss
    exact (hcommitted rest.nested (hreach.within hc).nested trivial).bind fun _ _ _ => trivial

theorem qualifiedRuleOver_inPlace : InPlace (qualifiedRuleOver s inner?) start :=
  halts_map (halts_both selectorGroup_inPlace selectorGroup_advances.proceeds
    (blockOver_inPlace hinner hproceeds))

theorem mixinDeclarationOver_inPlace : InPlace (mixinDeclarationOver s inner?) start := by
  have hname : (token s mixinName).Advances := token_advances (advances_map mixinStep_advances)
  have hnamed : InPlace (terminated (token s mixinName) (emptyParens s)) start :=
    halts_terminated (token_inPlace (halts_map mixinStep_inPlace)) hname.proceeds
      emptyParens_inPlace
  exact halts_map (halts_both hnamed
    (advances_terminated hname emptyParens_ensures.proceeds).proceeds
    (blockOver_inPlace hinner hproceeds))

theorem variableValueOver_inPlace (levels : Nat) :
    InPlace (variableValueOver s levels inner?) start := by
  refine halts_choice fun r hr => ?_
  simp only [List.mem_cons, List.not_mem_nil, or_false] at hr
  rcases hr with rfl | rfl
  · exact halts_map (blockOver_inPlace hinner hproceeds)
  · exact valueAt_inPlace levels

theorem variableDeclarationOver_inPlace (levels : Nat) :
    InPlace (variableDeclarationOver s levels inner?) start := by
  have hname := token_advances (s := s) atName_advances
  have hnamed : InPlace (terminated (token s atName) (symbol s [':'])) start :=
    halts_terminated (token_inPlace atName_inPlace) hname.proceeds (symbol_inPlace _)
  have hvalue : (cut (variableValueOver s levels inner?) "variable declaration").Proceeds :=
    ensures_cut (variableValueOver_ensures hproceeds (valueAt_advances levels)).proceeds
  exact halts_bind hnamed (advances_terminated hname (symbol_proceeds (by simp))).proceeds
    fun _ => halts_bind (halts_cut (variableValueOver_inPlace hinner hproceeds levels)
      fun _ => .asMiss) hvalue
      fun found => halts_map (halts_cut (variableEnd_inPlace found) fun _ => .asMiss)

theorem itemOver_inPlace (levels : Nat) : InPlace (itemOver s levels inner?) start := by
  refine halts_choice fun r hr => ?_
  simp only [List.mem_cons, List.not_mem_nil, or_false] at hr
  rcases hr with rfl | rfl | rfl | rfl | rfl | rfl
  · exact mixinDeclarationOver_inPlace hinner hproceeds
  · exact declarationAt_inPlace levels
  · exact mixinCall_inPlace
  · exact qualifiedRuleOver_inPlace hinner hproceeds
  · exact variableDeclarationOver_inPlace hinner hproceeds levels
  · exact variableCall_inPlace

end

theorem innerItem?_inPlace (levels : Nat) :
    ∀ inner ∈ innerItem? s levels, InPlace inner Cursor.Anywhere := by
  induction levels with
  | zero =>
    intro inner h
    cases h
  | succ levels ih =>
    intro inner h
    cases h
    exact itemOver_inPlace ih (innerItem?_proceeds levels) levels

theorem itemAt_inPlace (levels : Nat) : InPlace (itemAt s levels) start :=
  itemOver_inPlace (innerItem?_inPlace levels) (innerItem?_proceeds levels) levels

end LessSyntax.Grammar
