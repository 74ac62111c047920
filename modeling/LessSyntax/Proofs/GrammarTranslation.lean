import LessSyntax.Grammar.Item
import LessSyntax.Proofs.Lexeme.StringLiteral
import LessSyntax.Proofs.Lexeme.Url
import LessSyntax.Proofs.NestingLimit
import LessSyntax.Proofs.Translation

/-!
# The grammar behind another text

Each rule of the grammar reads behind another text what it reads without it, with all places
moved by the length of that text. This holds with any number of levels left: a rule at a given
number of levels does not look at how many blocks and calls are open.

* `trivia_carries`, `valueAt_carries`, `itemAt_carries`: the rules with their values moved.
-/

namespace LessSyntax

theorem Cursor.Within.reaches_advance {c : Cursor} (hc : c.Within) {count : Nat}
    (hcount : count ≤ c.ahead.length) : c.Reaches (c.advance count) := by
  obtain ⟨cs, -, hreads⟩ := hc.reads_take hcount
  exact ⟨cs, hreads⟩

/-- Behind two characters a comment goes on in the text ahead. -/
theorem Cursor.Within.inside_comment {c : Cursor} (hc : c.Within) {w : List Char} {n : Int}
    {x y : Char} {k : List Char} (hahead : c.ahead = [x, y] ++ k) :
    (c.advance 2).Within ∧ c.Reaches (c.advance 2) ∧
      ((c.behind w n).advance 2).counted = (c.advance 2).counted.behind w n ∧
      (c.advance 2).counted = c.advance 2 := by
  have hreads := hc.reads hahead
  have hinside : (c.advance 2).Within := hreads.within hc
  have hcounted : (c.advance 2).counted = c.advance 2 := Cursor.counted_eq hinside.1
  refine ⟨hinside, ⟨_, hreads⟩, ?_, hcounted⟩
  rw [hcounted, Cursor.advance_behind, Cursor.counted_eq hinside.behind.1]

end LessSyntax

namespace LessSyntax.Grammar

open Rule

variable {α : Type} {w : List Char} {n : Int} {s : Settings}

/-! ## Trivia -/

theorem blanks_carries : blanks.Carries w n id := by
  intro c hc
  unfold blanks
  rw [Cursor.onward_behind hc.1, Cursor.onward_eq hc.1]
  have hle : (c.ahead.takeWhile isBlank).length ≤ c.ahead.length :=
    (List.takeWhile_sublist _).length_le
  generalize (c.ahead.takeWhile isBlank).length = count at hle ⊢
  cases count with
  | zero => exact .missed hc.precedes_self
  | succ count =>
    show Carried w n id c (.matched () (c.advance (count + 1)))
      (.matched () ((c.behind w n).advance (count + 1)))
    rw [Cursor.advance_behind]
    exact .matched (hc.reaches_advance hle)

theorem blockComment_carries : blockComment.Carries w n id := by
  intro c hc
  unfold blockComment
  rw [Cursor.startsWith_behind hc.1]
  split
  · rename_i hstarts
    obtain ⟨k, hk⟩ := (Cursor.startsWith_iff (by simp)).mp hstarts
    obtain ⟨hinside, hreach, hbehind, hcounted⟩ := hc.inside_comment (w := w) (n := n) hk
    dsimp only
    rw [hbehind, hcounted, Cursor.ahead_behind hinside.1]
    cases hend : commentEnd? 0 (c.advance 2).ahead with
    | none => exact .failed hc.precedes_self
    | some count =>
      dsimp only
      rw [Cursor.advance_behind]
      have hbound := (commentEnd?_bounds hend).2
      exact .matched (hreach.trans (hinside.reaches_advance (by omega)))
  · exact .missed hc.precedes_self

theorem lineComment_carries : lineComment.Carries w n id := by
  intro c hc
  unfold lineComment
  rw [Cursor.startsWith_behind hc.1]
  split
  · rename_i hstarts
    obtain ⟨k, hk⟩ := (Cursor.startsWith_iff (by simp)).mp hstarts
    obtain ⟨hinside, hreach, hbehind, hcounted⟩ := hc.inside_comment (w := w) (n := n) hk
    dsimp only
    rw [hbehind, hcounted, Cursor.ahead_behind hinside.1, Cursor.advance_behind]
    have hbound := (lineEnd_bounds 0 (c.advance 2).ahead).2
    exact .matched (hreach.trans (hinside.reaches_advance (by omega)))
  · exact .missed hc.precedes_self

theorem trivia_carries : (trivia s).Carries w n id :=
  carries_map (carries_many (carries_choice
    (triviaUnit_forall blanks_carries blockComment_carries fun _ => lineComment_carries)))
    fun _ => rfl

variable {move : α → α} {rule : Rule α} {chars : List Char}

theorem token_carries (hrule : rule.Carries w n move) : (token s rule).Carries w n move :=
  carries_bind trivia_carries fun _ => hrule

theorem symbol_carries (hne : chars ≠ []) :
    (symbol s chars).Carries w n (Text.shift w.length) :=
  token_carries (carries_literal hne)

/-! ## Names and numbers -/

theorem name_carries : name.Carries w n (Text.shift w.length) :=
  carries_scan fun h => (nameLength?_bounds h).2

theorem nameAfter_carries (hne : chars ≠ []) :
    (nameAfter chars).Carries w n (Text.shift w.length) :=
  carries_preceded (carries_literal hne) name_carries

theorem atName_carries : atName.Carries w n (Text.shift w.length) := by
  intro c hc
  unfold atName
  rw [Cursor.startsWith_behind hc.1, Cursor.advance_behind]
  split
  · rename_i hstarts
    have hmark := Cursor.Reads.of_startsWith hc hstarts
    have h := name_carries (w := w) (n := n) _ (hmark.within hc)
    generalize name (c.advance 1) = a at h ⊢
    generalize name ((c.advance 1).behind w n) = b at h ⊢
    cases h with
    | matched hreach => exact .matched (Cursor.Reaches.trans ⟨_, hmark⟩ hreach)
    | missed _ => exact .missed hc.precedes_self
    | failed _ => exact .missed hc.precedes_self
  · exact .missed hc.precedes_self

theorem unit_carries : unit.Carries w n (Option.map (Text.shift w.length)) := by
  intro c hc
  unfold unit
  rw [Cursor.ahead_behind hc.1]
  have hle := unitLength_le c.ahead
  generalize unitLength c.ahead = count at hle ⊢
  cases count with
  | zero => exact .matched (.refl c)
  | succ count =>
    show Carried w n _ c (.matched (some (c.next (count + 1 : Nat))) (c.advance (count + 1)))
      (.matched (some ((c.behind w n).next (count + 1 : Nat))) ((c.behind w n).advance (count + 1)))
    rw [Cursor.next_behind hc.1, Cursor.advance_behind]
    exact .matched (hc.reaches_advance hle)

theorem number_carries : number.Carries w n (Value.shift w.length) := by
  have hparts : (map (fun found : Text × Option Text => Value.number found.1 found.2)
      (both (scan numberLength? "number") unit)).Carries w n (Value.shift w.length) :=
    carries_map (carries_both (carries_scan fun h => (numberLength?_bounds h).2) unit_carries)
      fun _ => rfl
  intro c hc
  rw [number_eq hc.1, number_eq hc.behind.1]
  exact hparts c hc

/-! ## Colours and addresses -/

theorem color_carries : color.Carries w n (Value.shift w.length) := by
  intro c hc
  unfold color
  rw [Cursor.startsWith_behind hc.1, Cursor.advance_behind]
  split
  · rename_i hstarts
    have hmark := Cursor.Reads.of_startsWith hc hstarts
    have hstart := hmark.within hc
    have hreach : c.Reaches (c.advance 1) := ⟨_, hmark⟩
    generalize c.advance 1 = start at hstart hreach ⊢
    dsimp only
    rw [Cursor.onward_behind hstart.1, Cursor.onward_eq hstart.1, Cursor.advance_behind,
      Cursor.next_behind hstart.1]
    have hle : (start.ahead.takeWhile isHexDigit).length ≤ start.ahead.length :=
      (List.takeWhile_sublist _).length_le
    have hstop := hstart.advance hle
    rw [show ((start.advance (start.ahead.takeWhile isHexDigit).length).behind w n).peek 1
      = (start.advance (start.ahead.takeWhile isHexDigit).length).peek 1 from
      Cursor.peek_behind hstop.1 1]
    split
    · exact .matched (hreach.trans (hstart.reaches_advance hle))
    · exact .missed hc.precedes_self
  · exact .missed hc.precedes_self

theorem addressFrom_carries {c start : Cursor} (hc : c.Within) (hreach : c.Reaches start) :
    Carried w n (Value.shift w.length) c (addressFrom c start)
      (addressFrom (c.behind w n) (start.behind w n)) := by
  have hstart := hreach.within hc
  unfold addressFrom
  rw [show (start.behind w n).peek 1 = start.peek 1 from Cursor.peek_behind hstart.1 1]
  split
  · exact .missed hc.precedes_self
  · have hfound : (addressChars start.ahead).length ≤ start.ahead.length :=
      (List.takeWhile_sublist _).length_le
    have hstop := hstart.advance hfound
    have hfar := hreach.trans (hstart.reaches_advance hfound)
    dsimp only
    rw [Cursor.onward_behind hstart.1, Cursor.onward_eq hstart.1, Cursor.advance_behind,
      Cursor.next_behind hstart.1, Cursor.startsWith_behind hstop.1, Cursor.advance_behind]
    split
    · rename_i hclose
      exact .matched (hfar.trans ⟨_, .of_startsWith hstop hclose⟩)
    · exact .failed (hfar.precedes hc)

theorem url_carries : url.Carries w n (Value.shift w.length) := by
  intro c hc
  rw [url_from, url_from,
    show (c.behind w n).peek 4 = c.peek 4 from Cursor.peek_behind hc.1 4]
  split
  · rename_i hpeek
    rw [show c.peek 4 = c.ahead.take 4 from peek_of_within hc 4] at hpeek
    have hfour : 4 ≤ c.ahead.length := length_of_isLowered_url hpeek
    have hopened := hc.advance hfour
    have hblank : ((c.advance 4).ahead.takeWhile isBlank).length ≤ (c.advance 4).ahead.length :=
      (List.takeWhile_sublist _).length_le
    rw [Cursor.advance_behind, Cursor.onward_behind hopened.1, Cursor.onward_eq hopened.1,
      Cursor.advance_behind]
    exact addressFrom_carries hc
      ((hc.reaches_advance hfour).trans (hopened.reaches_advance hblank))
  · exact .missed hc.precedes_self

/-! ## Strings -/

theorem clamped_behind (c : Cursor) : (c.behind w n).clamped = c.clamped.behind w n := by
  have hin : (c.behind w n).inText = c.inText := by
    simp only [Cursor.inText, Cursor.pos_behind, Cursor.size_behind, decide_eq_decide]
    omega
  unfold Cursor.clamped
  rw [hin]
  split
  · rfl
  · rw [Cursor.size_behind, Int.natCast_add, Cursor.moveTo_behind]

theorem clamped_precedes {c : Cursor} (hc : c.Within) (count : Nat) :
    c.Precedes (c.advance count).clamped := by
  unfold Cursor.clamped
  split
  · rename_i hin
    refine ⟨Cursor.text_advance c count, ?_, ?_⟩
    · rw [Cursor.pos_advance]
      omega
    · exact of_decide_eq_true hin
  · refine ⟨Cursor.text_advance c count, ?_, Int.le_refl _⟩
    show c.pos ≤ (c.advance count).size
    rw [Cursor.size_advance]
    exact hc.2

theorem segment_carries (quote : Quote) : (segment quote).Carries w n (Text.shift w.length) := by
  intro c hc
  rw [segment_eq hc.1, segment_eq hc.behind.1, Cursor.ahead_behind hc.1]
  cases hend : segmentEnd quote 0 c.ahead with
  | error count =>
    dsimp only
    rw [Cursor.advance_behind, clamped_behind]
    exact .failed (clamped_precedes hc count)
  | ok count =>
    dsimp only
    rw [Cursor.next_behind hc.1, Cursor.advance_behind]
    have hbound := (segmentEnd_bounds hend).2
    exact .matched (hc.reaches_advance (by omega))

theorem delimitedName_carries (hne : chars ≠ []) :
    (delimited (literal chars) name (literal ['}'])).Carries w n (Text.shift w.length) :=
  carries_preceded (carries_literal hne)
    (carries_terminated name_carries (carries_literal (by simp)))

theorem interpolation_carries : interpolation.Carries w n (Interpolation.shift w.length) := by
  refine carries_choice fun r hr => ?_
  simp only [List.mem_cons, List.not_mem_nil, or_false] at hr
  rcases hr with rfl | rfl
  · exact carries_map (delimitedName_carries (by simp)) fun _ => rfl
  · exact carries_map (delimitedName_carries (by simp)) fun _ => rfl

section

variable {quote : Quote} {q : Char} (hq : Mark quote q)
include hq

theorem quoteMark_carries : (quoteMark quote).Carries w n id := by
  intro c hc
  unfold quoteMark
  rw [Cursor.startsWith_behind hc.1, Cursor.advance_behind, hq.chars]
  split
  · rename_i hstarts
    exact .matched ⟨_, .of_startsWith hc hstarts⟩
  · exact .missed hc.precedes_self

theorem stringPart_carries : (stringPart quote).Carries w n (shiftPart w.length) := by
  have hboth : (both (cut interpolation "string interpolation") (segment quote)).Carries w n
      (Prod.map (Interpolation.shift w.length) (Text.shift w.length)) :=
    carries_both (carries_cut interpolation_carries) (segment_carries quote)
  intro c hc
  unfold stringPart
  rw [Cursor.startsWith_behind hc.1, hq.chars]
  split
  · exact .missed hc.precedes_self
  · exact hboth c hc

theorem stringParts_carries :
    (stringParts quote).Carries w n (OneOrMore.map (shiftPart w.length)) :=
  carries_terminated (carries_many1 (stringPart_carries hq)) (quoteMark_carries hq)

theorem stringLiteral_carries : (stringLiteral quote).Carries w n (Value.shift w.length) := by
  refine carries_bind (carries_preceded (quoteMark_carries hq) (segment_carries quote))
    fun first rest hrest => ?_
  rw [Cursor.startsWith_behind hrest.1, Cursor.advance_behind, hq.chars]
  split
  · rename_i hstarts
    exact .matched ⟨_, .of_startsWith hrest hstarts⟩
  · exact (stringParts_carries hq rest hrest).map fun _ => rfl

end

theorem quotedString_carries : quotedString.Carries w n (Value.shift w.length) := by
  refine carries_choice fun r hr => ?_
  simp only [List.mem_cons, List.not_mem_nil, or_false] at hr
  rcases hr with rfl | rfl
  · exact stringLiteral_carries .double
  · exact stringLiteral_carries .single

/-! ## Values -/

theorem shift_collapse (offset : Int) (separator : Separator) (vs : OneOrMore Value) :
    collapse separator (vs.map (Value.shift offset)) = (collapse separator vs).shift offset := by
  obtain ⟨first, others⟩ := vs
  cases others with
  | nil => rfl
  | cons v vs =>
    show Value.list ((first :: v :: vs).map (Value.shift offset)) separator
      = (Value.list (first :: v :: vs) separator).shift offset
    rw [Value.shift, Value.shiftAll_eq]

section

variable {inner? : Option (Rule Value)}
  (hinner : ∀ argument ∈ inner?, Carries w n (Value.shift w.length) argument)

theorem arguments_carries {argument : Rule Value}
    (hargument : argument.Carries w n (Value.shift w.length)) :
    (arguments s argument).Carries w n (Value.shiftAll w.length) := by
  refine carries_map (carries_cut (carries_terminated (carries_opt (carries_separated1 hargument
    (symbol_carries (by simp)))) (symbol_carries (by simp)))) fun found => ?_
  rw [Value.shiftAll_eq]
  cases found with
  | none => rfl
  | some found => rfl

include hinner

theorem callOver_carries : (callOver s inner?).Carries w n (Value.shift w.length) := by
  intro c hc
  have hname := name_carries (w := w) (n := n) c hc
  unfold callOver
  generalize name c = a at hname ⊢
  generalize name (c.behind w n) = b at hname ⊢
  cases hname with
  | missed _ => exact .missed hc.precedes_self
  | failed _ => exact .missed hc.precedes_self
  | @matched callee named hreach =>
    have hnamed := hreach.within hc
    dsimp only
    rw [Cursor.startsWith_behind hnamed.1]
    split
    · rename_i hparen
      have hopen := Cursor.Reads.of_startsWith hnamed hparen
      cases inner? with
      | none => exact .failed (hreach.precedes hc)
      | some argument =>
        dsimp only
        rw [Cursor.advance_behind, Cursor.nested_behind]
        exact carried_of_nested (hreach.trans ⟨_, hopen⟩)
          (arguments_carries (hinner argument rfl) _ (hopen.within hnamed).nested) fun _ => rfl
    · exact .missed hc.precedes_self

theorem primitiveOver_carries : (primitiveOver s inner?).Carries w n (Value.shift w.length) := by
  refine token_carries (carries_choice fun r hr => ?_)
  simp only [List.mem_cons, List.not_mem_nil, or_false] at hr
  rcases hr with rfl | rfl | rfl | rfl | rfl | rfl | rfl | rfl
  · exact quotedString_carries
  · exact color_carries
  · exact number_carries
  · exact url_carries
  · exact callOver_carries hinner
  · exact carries_map atName_carries fun _ => rfl
  · exact carries_map (nameAfter_carries (by simp)) fun _ => rfl
  · exact carries_map name_carries fun _ => rfl

theorem slashListOver_carries : (slashListOver s inner?).Carries w n (Value.shift w.length) :=
  carries_map (carries_separated1 (primitiveOver_carries hinner) (symbol_carries (by simp)))
    (shift_collapse _ _)

theorem spaceListOver_carries : (spaceListOver s inner?).Carries w n (Value.shift w.length) :=
  carries_map (carries_many1 (slashListOver_carries hinner)) (shift_collapse _ _)

theorem commaListOver_carries : (commaListOver s inner?).Carries w n (Value.shift w.length) :=
  carries_map (carries_separated1 (spaceListOver_carries hinner) (symbol_carries (by simp)))
    (shift_collapse _ _)

end

theorem argument?_carries (levels : Nat) :
    ∀ argument ∈ argument? s levels, Carries w n (Value.shift w.length) argument := by
  induction levels with
  | zero =>
    intro argument h
    cases h
  | succ levels ih =>
    intro argument h
    cases h
    exact spaceListOver_carries ih

theorem valueAt_carries (levels : Nat) :
    (valueAt s levels).Carries w n (Value.shift w.length) :=
  commaListOver_carries (argument?_carries levels)

/-! ## Selectors -/

theorem idSelector_carries : idSelector.Carries w n (Selector.shift w.length) :=
  carries_map (nameAfter_carries (by simp)) fun _ => rfl

theorem classSelector_carries : classSelector.Carries w n (Selector.shift w.length) :=
  carries_map (nameAfter_carries (by simp)) fun _ => rfl

theorem typeSelector_carries : typeSelector.Carries w n (Selector.shift w.length) :=
  carries_map name_carries fun _ => rfl

theorem universalSelector_carries : universalSelector.Carries w n (Selector.shift w.length) :=
  carries_map (carries_literal (by simp)) fun _ => rfl

theorem simpleSelector_carries : (simpleSelector s).Carries w n (Selector.shift w.length) := by
  refine token_carries (carries_choice fun r hr => ?_)
  simp only [List.mem_cons, List.not_mem_nil, or_false] at hr
  rcases hr with rfl | rfl | rfl | rfl
  · exact idSelector_carries
  · exact classSelector_carries
  · exact typeSelector_carries
  · exact universalSelector_carries

theorem selectorGroup_carries :
    (selectorGroup s).Carries w n (OneOrMore.map (Selector.shift w.length)) :=
  carries_separated1 simpleSelector_carries (symbol_carries (by simp))

theorem mixinStep_carries : mixinStep.Carries w n (Selector.shift w.length) := by
  refine carries_choice fun r hr => ?_
  simp only [List.mem_cons, List.not_mem_nil, or_false] at hr
  rcases hr with rfl | rfl
  · exact classSelector_carries
  · exact idSelector_carries

theorem mixinName_carries : mixinName.Carries w n (OneOrMore.map (Selector.shift w.length)) :=
  carries_map mixinStep_carries fun _ => rfl

theorem mixinPath_carries :
    (mixinPath s).Carries w n (OneOrMore.map (Selector.shift w.length)) :=
  carries_map (carries_both (token_carries mixinStep_carries)
    (carries_many (carries_preceded (carries_opt (symbol_carries (by simp)))
      (token_carries mixinStep_carries)))) fun _ => rfl

/-! ## Endings -/

theorem terminator_carries :
    (terminator s).Carries w n (Option.map (Text.shift w.length)) := by
  refine carries_choice fun r hr => ?_
  simp only [List.mem_cons, List.not_mem_nil, or_false] at hr
  rcases hr with rfl | rfl | rfl
  · exact carries_map (symbol_carries (by simp)) fun _ => rfl
  · exact carries_map (carries_peek (symbol_carries (by simp))) fun _ => rfl
  · exact carries_map (token_carries (carries_endOf _)) fun _ => rfl

theorem variableEnd_carries (v : Value) :
    (variableEnd s v).Carries w n (Option.map (Text.shift w.length)) := by
  unfold variableEnd
  split
  · exact carries_opt (symbol_carries (by simp))
  · exact terminator_carries

theorem variableEnd_shift (offset : Int) (v : Value) :
    variableEnd s (v.shift offset) = variableEnd s v := by
  cases v <;> rfl

theorem important_carries : (important s).Carries w n id := by
  refine carries_bind (carries_opt (symbol_carries (by simp))) fun mark rest hrest => ?_
  cases mark with
  | none => exact .matched (.refl rest)
  | some mark =>
    refine (trivia_carries rest hrest).bind fun _ start hreach => ?_
    have hstart := hreach.within hrest
    have hname := name_carries (w := w) (n := n) start hstart
    generalize name start = a at hname ⊢
    generalize name (start.behind w n) = b at hname ⊢
    cases hname with
    | missed _ => exact .missed hstart.precedes_self
    | failed _ => exact .missed hstart.precedes_self
    | @matched word stop hreach' =>
      dsimp only [Text.shift]
      split
      · exact .matched hreach'
      · exact .missed hstart.precedes_self

theorem emptyParens_carries :
    (emptyParens s).Carries w n (Prod.map (Text.shift w.length) (Text.shift w.length)) :=
  carries_both (symbol_carries (by simp)) (symbol_carries (by simp))

theorem closeBlock_carries : (closeBlock s).Carries w n (Text.shift w.length) := by
  refine carries_choice fun r hr => ?_
  simp only [List.mem_cons, List.not_mem_nil, or_false] at hr
  subst hr
  exact symbol_carries (by simp)

/-! ## Items -/

theorem many_carries {inner : Rule Item} (hinner : inner.Carries w n (Item.shift w.length)) :
    (many inner).Carries w n (Item.shiftAll w.length) := by
  rw [show Item.shiftAll w.length = List.map (Item.shift w.length) from
    funext (Item.shiftAll_eq w.length)]
  exact carries_many hinner

section

variable {levels : Nat} {inner? : Option (Rule Item)}
  (hinner : ∀ inner ∈ inner?, Carries w n (Item.shift w.length) inner)

section

include hinner

theorem blockOver_carries :
    (blockOver s inner?).Carries w n (Item.shiftAll w.length) := by
  intro c hc
  have hsymbol : Carried w n _ c (symbol s ['{'] c) (symbol s ['{'] (c.behind w n)) :=
    symbol_carries (by simp) c hc
  have hadvances : ∀ t rest, symbol s ['{'] c = .matched t rest → c.pos < rest.pos := by
    intro t rest h
    exact (symbol_advances (by simp) c t rest hc h).2
  unfold blockOver
  generalize symbol s ['{'] c = a at hsymbol hadvances ⊢
  generalize symbol s ['{'] (c.behind w n) = b at hsymbol ⊢
  cases hsymbol with
  | missed hplace => exact .missed hplace
  | failed hplace => exact .failed hplace
  | @matched t opened hreach =>
    have hpos := hadvances t opened rfl
    have hopened := hreach.within hc
    dsimp only [Outcome.bind]
    cases inner? with
    | none =>
      dsimp only
      rw [show (opened.behind w n).moveTo ((opened.behind w n).pos - 1)
        = (opened.moveTo (opened.pos - 1)).behind w n by
          rw [Cursor.pos_behind, ← Cursor.moveTo_behind]; congr 1; omega]
      refine .failed ⟨hreach.text, ?_, ?_⟩
      · show c.pos ≤ opened.pos - 1
        omega
      · show opened.pos - 1 ≤ opened.size
        have hstop := hopened.2
        omega
    | some inner =>
      dsimp only
      rw [Cursor.nested_behind]
      exact carried_of_nested hreach (carries_cut (carries_terminated
        (many_carries (hinner inner rfl)) closeBlock_carries) _ hopened.nested) fun _ => rfl

theorem qualifiedRuleOver_carries :
    (qualifiedRuleOver s inner?).Carries w n (Item.shift w.length) :=
  carries_map (carries_both selectorGroup_carries (blockOver_carries hinner)) fun _ => rfl

theorem mixinDeclarationOver_carries :
    (mixinDeclarationOver s inner?).Carries w n (Item.shift w.length) :=
  carries_map (carries_both (carries_terminated (token_carries mixinName_carries)
    emptyParens_carries) (blockOver_carries hinner)) fun _ => rfl

theorem variableValueOver_carries :
    (variableValueOver s levels inner?).Carries w n (Value.shift w.length) := by
  refine carries_choice fun r hr => ?_
  simp only [List.mem_cons, List.not_mem_nil, or_false] at hr
  rcases hr with rfl | rfl
  · exact carries_map (blockOver_carries hinner) fun _ => rfl
  · exact valueAt_carries levels

theorem variableDeclarationOver_carries :
    (variableDeclarationOver s levels inner?).Carries w n (Item.shift w.length) := by
  refine carries_bind (carries_terminated (token_carries atName_carries)
    (symbol_carries (by simp))) fun declared rest hrest => ?_
  refine (carries_cut (variableValueOver_carries hinner) rest hrest).bind fun v stop hreach => ?_
  rw [variableEnd_shift]
  exact (carries_cut (variableEnd_carries v) stop (hreach.within hrest)).map fun _ => rfl

end

theorem declarationAt_carries : (declarationAt s levels).Carries w n (Item.shift w.length) :=
  carries_bind (carries_terminated (token_carries name_carries) (symbol_carries (by simp)))
    fun _ rest hrest => (carries_cut (carries_both (valueAt_carries levels)
      (carries_terminated important_carries terminator_carries)) rest hrest).map fun _ => rfl

theorem mixinCall_carries : (mixinCall s).Carries w n (Item.shift w.length) :=
  carries_map (carries_terminated (carries_terminated mixinPath_carries emptyParens_carries)
    (carries_cut terminator_carries)) fun _ => rfl

theorem variableCall_carries : (variableCall s).Carries w n (Item.shift w.length) :=
  carries_map (carries_terminated (carries_terminated (token_carries atName_carries)
    emptyParens_carries) (carries_cut terminator_carries)) fun _ => rfl

include hinner in
theorem itemOver_carries : (itemOver s levels inner?).Carries w n (Item.shift w.length) := by
  refine carries_choice fun r hr => ?_
  simp only [List.mem_cons, List.not_mem_nil, or_false] at hr
  rcases hr with rfl | rfl | rfl | rfl | rfl | rfl
  · exact mixinDeclarationOver_carries hinner
  · exact declarationAt_carries
  · exact mixinCall_carries
  · exact qualifiedRuleOver_carries hinner
  · exact variableDeclarationOver_carries hinner
  · exact variableCall_carries

end

theorem innerItem?_carries (levels : Nat) :
    ∀ inner ∈ innerItem? s levels, Carries w n (Item.shift w.length) inner := by
  induction levels with
  | zero =>
    intro inner h
    cases h
  | succ levels ih =>
    intro inner h
    cases h
    exact itemOver_carries ih

theorem itemAt_carries (levels : Nat) : (itemAt s levels).Carries w n (Item.shift w.length) :=
  itemOver_carries (innerItem?_carries levels)

end LessSyntax.Grammar
