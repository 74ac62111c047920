import LessSyntax.Proofs.WovenItem

/-!
# Items from tokens

Items that can be printed are read again from their tokens, whatever trivia stands before each of
them. The six kinds of items are tried in order, and several begin alike: for each kind the rules
before its own are shown to miss, without having committed to anything.

* `itemOver_takes`: a rule for items takes them, if the rule for the items of blocks does.
* `parseStylesheet_woven`: a stylesheet is read from the tokens of its items.
-/

namespace LessSyntax

open Grammar Rule

variable {s : Settings}

namespace Grammar

variable {inner? : Option (Rule Item)} {levels : Nat} {k : List Char} {xs : List Item}

/-! ## Declarations -/

theorem accepts_declaration {t : Text} {value : Value} {marked : Bool} (hname : IsName t.chars)
    (hwritten : value.Written 3) (hnest : value.nesting ≤ levels) :
    (declarationAt s levels).AcceptsWoven s.lineComments (Item.declaration t value marked).tokens k
      fun y => (Item.declaration t value marked).same y = true := by
  have hmarked : ∃ marks, (Item.declaration t value marked).tokens
        = [t.chars, [':']] ++ ([value.print] ++ (marks ++ [[';']])) ∧
      (∀ b, Woven s.lineComments (marks ++ [[';']]) b k →
        Next s.lineComments (· ∈ valueEnds) (b ++ k)) ∧
      (terminated (important s) (terminator s)).AcceptsWoven s.lineComments (marks ++ [[';']]) k
        (· = marked) := by
    cases marked with
    | false =>
      refine ⟨[], rfl, fun b hb => woven_next_mark hb (by decide) (by decide), ?_⟩
      exact accepts_woven_terminated (fun b hb => accepts_important_absent
        (woven_next_mark hb (by decide) (by decide))) accepts_terminator
    | true =>
      refine ⟨[['!'], importantWord], rfl,
        fun b hb => woven_next_mark hb (by decide) (by decide), ?_⟩
      exact accepts_woven_terminated (fun b hb => accepts_important_present
        (woven_next_mark hb (by decide) rfl)) accepts_terminator
  obtain ⟨marks, htokens, hends, hmarked⟩ := hmarked
  have hnamed : ∀ l, (terminated (token s name) (symbol s [':'])).AcceptsWoven s.lineComments
      [t.chars, [':']] l fun found => found.chars = t.chars := by
    intro l
    refine accepts_woven_terminated (t := [t.chars]) (fun b hb => ?_)
      (accepts_woven_symbol (by decide))
    exact accepts_woven_token (heads_name hname) (accepts_name hname
      (Next.stops isNameChar_boundary (woven_next_mark hb (by decide) rfl)))
  rw [htokens]
  refine accepts_woven_bind (fun b _ => hnamed _) fun found hfound text h => ?_
  refine accepts_map (accepts_cut (accepts_mono (accepts_woven_both
    (fun b hb => accepts_woven_value hwritten hnest (hends b hb)) hmarked text h) ?_))
  rintro ⟨found', mark⟩ ⟨hsame, rfl⟩
  rw [Item.same, Text.same_iff.mpr hfound.symm, hsame, beq_self_eq_true]
  rfl

/-! ## Rules and mixins -/

theorem accepts_rule {selectors : SelectorGroup} (hinner : TakesInner s inner? levels)
    (hprintable : (Item.rule selectors xs).Printable s)
    (hnest : (Item.rule selectors xs).nesting ≤ levels) :
    (qualifiedRuleOver s inner?).AcceptsWoven s.lineComments (Item.rule selectors xs).tokens k
      fun y => (Item.rule selectors xs).same y = true := by
  intro text h
  refine accepts_map (accepts_mono (accepts_woven_both (fun b hb => accepts_selectorGroup
    hprintable.1 (woven_next_mark hb (by decide) (by decide)))
    (accepts_woven_innerBlock hinner hprintable.2 hnest) text h) fun found hfound => ?_)
  rw [Item.same, hfound.1, hfound.2]
  rfl

/-- Behind the first selector of a rule stands a comma or a brace. No rule before the one for rules
goes on there, and none has committed to the selector. -/
theorem refuses_before_rule {selectors : SelectorGroup} (h : selectors.first.Printable)
    {text : List Char} (hwoven : Woven s.lineComments (Item.rule selectors xs).tokens text k) :
    (mixinDeclarationOver s inner?).Refuses (text ++ k) ∧
      (declarationAt s levels).Refuses (text ++ k) ∧ (mixinCall s).Refuses (text ++ k) := by
  obtain ⟨first, others⟩ := selectors
  rw [Item.tokens, selectorTokens_eq, List.append_assoc] at hwoven
  obtain ⟨a, b, rfl, ha, hb⟩ := woven_append hwoven
  have hbehind : Next s.lineComments (fun x => x ∈ groupEnds ∧ x ≠ '(') (b ++ k) := by
    cases others with
    | nil => exact woven_next_mark hb (by decide) (by decide)
    | cons other others => exact woven_next_mark hb (by decide) (by decide)
  have hahead := woven_next ha (selector_heads h)
  rw [List.append_assoc]
  obtain ⟨kind, t⟩ := first
  cases kind with
  | byId | byClass =>
    have hmixin : Selector.NamesMixin ⟨_, t⟩ := ⟨by first | exact Or.inl rfl | exact Or.inr rfl, h⟩
    have hname : Next s.lineComments (fun x => x ∈ selectorEnds ∧ x ≠ '(') (b ++ k) :=
      hbehind.mono fun _ hx => ⟨groupEnds_subset hx.1, hx.2⟩
    exact ⟨mixinDeclaration_refuses_named hmixin hname a ha,
      declaration_refuses (hahead.mono (by rintro _ rfl; rfl)),
      mixinCall_refuses_named hmixin hbehind a ha⟩
  | byType =>
    have hstep : Next s.lineComments (fun x => x ≠ '#' ∧ x ≠ '.') (a ++ (b ++ k)) := by
      refine hahead.mono fun x hx => ?_
      have hname : isNameChar x = true := hx
      exact ⟨ne_of_class hname rfl, ne_of_class hname rfl⟩
    have hcolon : Next s.lineComments (fun x => isNameChar x = false ∧ x ≠ ':') (b ++ k) :=
      hbehind.mono fun x hx =>
        ⟨isNameChar_selectorEnds x (groupEnds_subset hx.1), groupEnds_ne hx.1 (by decide)⟩
    exact ⟨mixinDeclaration_refuses hstep, declaration_refuses_named h hcolon a ha,
      mixinCall_refuses hstep⟩
  | universal =>
    exact ⟨mixinDeclaration_refuses (hahead.mono (by rintro _ rfl; decide)),
      declaration_refuses (hahead.mono (by rintro _ rfl; decide)),
      mixinCall_refuses (hahead.mono (by rintro _ rfl; decide))⟩

theorem accepts_mixin {path : MixinPath} (hinner : TakesInner s inner? levels)
    (hprintable : (Item.mixin path xs).Printable s)
    (hnest : (Item.mixin path xs).nesting ≤ levels) :
    (mixinDeclarationOver s inner?).AcceptsWoven s.lineComments (Item.mixin path xs).tokens k
      fun y => (Item.mixin path xs).same y = true := by
  intro text h
  obtain ⟨step, others⟩ := path
  obtain ⟨hothers, hstep, hblock⟩ := hprintable
  obtain rfl : others = [] := hothers
  have htokens : (Item.mixin ⟨step, []⟩ xs).tokens
      = ([step.print] ++ [['('], [')']]) ++ inBraces (Item.tokensAll xs) := rfl
  rw [htokens] at h
  refine accepts_map (accepts_mono (accepts_woven_both (fun b _ => accepts_woven_terminated
    (fun d hd => accepts_mixinName hstep ?_) accepts_emptyParens)
    (accepts_woven_innerBlock hinner hblock hnest) text h) fun found hfound => ?_)
  · exact woven_next_mark hd (by decide) (by decide)
  · rw [Item.same, hfound.1, hfound.2]
    rfl

theorem accepts_mixinCall {path : MixinPath} (h : ∀ step ∈ path.toList, step.NamesMixin) :
    (mixinCall s).AcceptsWoven s.lineComments (Item.mixinCall path).tokens k
      fun y => (Item.mixinCall path).same y = true := by
  intro text hwoven
  have htokens : (Item.mixinCall path).tokens
      = ((path.toList.map Selector.print).intersperse ['>'] ++ [['('], [')']]) ++ [[';']] :=
    (List.append_assoc _ [['('], [')']] [[';']]).symm
  rw [htokens] at hwoven
  refine accepts_map (accepts_mono (accepts_woven_terminated (fun b _ => accepts_woven_terminated
    (fun d hd => accepts_mixinPath h ?_) accepts_emptyParens)
    (fun d hd => accepts_cut (accepts_terminator d hd)) text hwoven) fun found hfound => ?_)
  · exact woven_next_mark hd (by decide) (by decide)
  · rw [Item.same]
    exact hfound

/-- A call of a mixin is no declaration of one: either its name goes on, or no brace opens behind
its parentheses. -/
theorem refuses_before_mixinCall {path : MixinPath} (h : ∀ step ∈ path.toList, step.NamesMixin)
    {text : List Char} (hwoven : Woven s.lineComments (Item.mixinCall path).tokens text k) :
    (mixinDeclarationOver s inner?).Refuses (text ++ k) ∧
      (declarationAt s levels).Refuses (text ++ k) := by
  obtain ⟨step, others⟩ := path
  have hstep := h step List.mem_cons_self
  rw [Item.tokens, selectorTokens_eq, List.append_assoc] at hwoven
  refine ⟨?_, declaration_refuses ((woven_next hwoven (selector_heads hstep.printable)).mono ?_)⟩
  · cases others with
    | nil =>
      have hsplit : Woven s.lineComments (([step.print] ++ [['('], [')']]) ++ [[';']]) text k :=
        hwoven
      obtain ⟨a, b, rfl, ha, hb⟩ := woven_append hsplit
      rw [List.append_assoc]
      refine map_refuses (both_refuses (accepts_woven_terminated
        (fun d hd => accepts_mixinName hstep ?_) accepts_emptyParens a ha) (blockOver_refuses ?_))
      · exact woven_next_mark hd (by decide) (by decide)
      · exact woven_next_mark hb (by decide) (by decide)
    | cons other others =>
      obtain ⟨a, b, rfl, ha, hb⟩ := woven_append hwoven
      rw [List.append_assoc]
      exact mixinDeclaration_refuses_named hstep (woven_next_mark hb (by decide) (by decide)) a ha
  · obtain ⟨kind, t⟩ := step
    obtain ⟨rfl | rfl, -⟩ := hstep <;>
      · rintro x rfl
        rfl

/-! ## Variables -/

theorem value_heads {value : Value} {rank : Nat} (h : value.Written rank) :
    Heads (· ∉ nonHeads) value.print := by
  obtain ⟨x, l, hprint, hx⟩ := h.head
  refine ⟨x, l, hprint, Bool.eq_false_iff.mpr fun hblank => ?_, ?_, hx⟩
  · exact hx (List.mem_cons_of_mem _ (List.mem_cons_of_mem _ (isBlank_mem_boundaryChars hblank)))
  · rintro rfl
    exact hx (by decide)

theorem variable_heads (t : Text) : Heads (· = '@') ('@' :: t.chars) :=
  ⟨'@', t.chars, rfl, rfl, by decide, rfl⟩

theorem accepts_woven_atName {t : Text} (h : IsName t.chars)
    (hk : Next s.lineComments (isNameChar · = false) k) :
    (token s atName).AcceptsWoven s.lineComments ['@' :: t.chars] k
      fun found => found.chars = t.chars :=
  accepts_woven_token (variable_heads t)
    (accepts_atName h (Next.stops isNameChar_boundary hk))

/-- Values with the same content are ended alike. -/
theorem variableEnd_same {value found : Value} (hplain : ∀ block, value ≠ .ruleset block)
    (h : value.same found = true) : variableEnd s found = terminator s := by
  cases found with
  | ruleset block =>
    cases value with
    | ruleset block' => exact absurd rfl (hplain block')
    | _ => simp [Value.same] at h
  | _ => rfl

theorem endPrintable_cases {value : Value} (h : Value.EndPrintable s value) :
    (∃ block, value = .ruleset block ∧ Item.AllPrintable s block) ∨
      value.endTokens = [value.print] ++ [[';']] ∧ value.Parsed s ∧
        ∀ block, value ≠ .ruleset block := by
  cases value with
  | ruleset block => exact Or.inl ⟨block, rfl, h⟩
  | _ => exact Or.inr ⟨rfl, h, fun _ => by simp⟩

/-- The value of a variable with the colon before it. -/
theorem accepts_variableValue {value : Value} (hinner : TakesInner s inner? levels)
    (hprintable : Value.EndPrintable s value) (hnest : value.nesting ≤ levels)
    (hsemicolon : (symbol s [';']).Refuses k) {t declared : Text}
    (hdeclared : declared.chars = t.chars) :
    AcceptsWoven (fun c => (cut (variableValueOver s levels inner?) "variable declaration" c).bind
        fun found stop => (cut (variableEnd s found) "variable declaration" stop).map
          fun _ => Item.variable declared found)
      s.lineComments value.endTokens k fun y => (Item.variable t value).same y = true := by
  have hsame : ∀ {found : Value}, value.same found = true →
      (Item.variable t value).same (.variable declared found) = true := by
    intro found h
    rw [Item.same, h, Text.same_iff.mpr hdeclared.symm]
    rfl
  rcases endPrintable_cases hprintable with ⟨block, rfl, hblock⟩ | ⟨htokens, hparsed, hplain⟩
  · have hvalue : ∀ l, (variableValueOver s levels inner?).AcceptsWoven s.lineComments
        (inBraces (Item.tokensAll block)) l
        fun found => ∃ ys, found = .ruleset ys ∧ Item.sameAll block ys = true :=
      fun l text h => accepts_choice_head (accepts_map (accepts_mono
        (accepts_woven_innerBlock hinner hblock hnest text h) fun ys hys => ⟨ys, rfl, hys⟩))
    rw [show (Value.ruleset block).endTokens = inBraces (Item.tokensAll block) ++ []
      from (List.append_nil _).symm]
    refine accepts_woven_bind (fun b _ text h => accepts_cut (hvalue _ text h)) ?_
    rintro _ ⟨ys, rfl, hys⟩ text h
    cases h
    refine accepts_map (accepts_cut (accepts_mono (accepts_opt_none hsemicolon) fun _ _ => ?_))
    exact hsame (by rw [Value.same]; exact hys)
  · rw [htokens]
    refine accepts_woven_bind (P := fun found => value.same found = true) (fun b hb text h => ?_)
      fun found hfound text h => ?_
    · have hwritten := hparsed.written
      have hends : Next s.lineComments (· ∈ valueEnds) (b ++ k) :=
        woven_next_mark hb (by decide) (by decide)
      have hbrace : Next s.lineComments (· ≠ '{') (text ++ (b ++ k)) := by
        refine (woven_next h (value_heads hwritten)).mono fun x hx => ?_
        rintro rfl
        exact hx (by decide)
      exact accepts_cut (accepts_choice_tail (map_refuses (blockOver_refuses hbrace))
        (accepts_choice_head (accepts_woven_value hwritten hnest hends text h)))
    · refine accepts_map (accepts_cut ?_)
      rw [variableEnd_same hplain hfound]
      exact accepts_mono (accepts_terminator text h) fun _ _ => hsame hfound

theorem accepts_variable {t : Text} {value : Value} (hinner : TakesInner s inner? levels)
    (hprintable : (Item.variable t value).Printable s)
    (hnest : (Item.variable t value).nesting ≤ levels) (hsemicolon : (symbol s [';']).Refuses k) :
    (variableDeclarationOver s levels inner?).AcceptsWoven s.lineComments
      (Item.variable t value).tokens k fun y => (Item.variable t value).same y = true := by
  have htokens : (Item.variable t value).tokens
      = (['@' :: t.chars] ++ [[':']]) ++ value.endTokens := rfl
  rw [htokens]
  exact accepts_woven_bind (fun b _ => accepts_woven_terminated (fun d hd =>
    accepts_woven_atName hprintable.1 (woven_next_mark hd (by decide) rfl))
    (accepts_woven_symbol (by decide))) fun declared hdeclared =>
      accepts_variableValue hinner hprintable.2 hnest hsemicolon hdeclared

theorem accepts_variableCall {t : Text} (h : IsName t.chars) :
    (variableCall s).AcceptsWoven s.lineComments (Item.variableCall t).tokens k
      fun y => (Item.variableCall t).same y = true := by
  intro text hwoven
  have htokens : (Item.variableCall t).tokens
      = (['@' :: t.chars] ++ [['('], [')']]) ++ [[';']] := rfl
  rw [htokens] at hwoven
  refine accepts_map (accepts_mono (accepts_woven_terminated (fun b _ => accepts_woven_terminated
    (fun d hd => accepts_woven_atName h ?_) accepts_emptyParens)
    (fun d hd => accepts_cut (accepts_terminator d hd)) text hwoven) fun found hfound => ?_)
  · exact woven_next_mark hd (by decide) rfl
  · rw [Item.same]
    exact Text.same_iff.mpr hfound.symm

theorem variableDeclaration_refuses_call {t : Text} (h : IsName t.chars) {text : List Char}
    (hwoven : Woven s.lineComments (Item.variableCall t).tokens text k) :
    (variableDeclarationOver s levels inner?).Refuses (text ++ k) := by
  have hsplit : Woven s.lineComments (['@' :: t.chars] ++ [['('], [')'], [';']]) text k := hwoven
  obtain ⟨a, b, rfl, ha, hb⟩ := woven_append hsplit
  rw [List.append_assoc]
  have hcolon : Next s.lineComments (· ≠ ':') (b ++ k) :=
    woven_next_mark hb (by decide) (by decide)
  exact bind_refuses (map_refuses (both_refuses
    (accepts_woven_atName h (woven_next_mark hb (by decide) rfl) a ha)
    (symbol_refuses_next hcolon)))

/-! ## All kinds -/

theorem itemOver_takes (hinner : TakesInner s inner? levels) :
    TakesItems s (itemOver s levels inner?) levels := by
  intro x k hprintable hnest hsemicolon text h
  have hvariable : ∀ {t : Text} {tokens : List (List Char)},
      Woven s.lineComments (('@' :: t.chars) :: tokens) text k →
      (mixinDeclarationOver s inner?).Refuses (text ++ k) ∧
        (declarationAt s levels).Refuses (text ++ k) ∧ (mixinCall s).Refuses (text ++ k) ∧
        (qualifiedRuleOver s inner?).Refuses (text ++ k) := by
    intro t tokens h
    have hat := woven_next h (variable_heads t)
    exact ⟨mixinDeclaration_refuses (hat.mono (by rintro _ rfl; decide)),
      declaration_refuses (hat.mono (by rintro _ rfl; decide)),
      mixinCall_refuses (hat.mono (by rintro _ rfl; decide)),
      qualifiedRule_refuses (hat.mono (by rintro _ rfl; decide))⟩
  match x, hprintable with
  | .mixin path block, hprintable =>
    exact accepts_choice_head (accepts_mixin hinner hprintable hnest text h)
  | .declaration t value marked, hprintable =>
    have hstep : Next s.lineComments (fun x => x ≠ '#' ∧ x ≠ '.') (text ++ k) := by
      refine (woven_next h (heads_name hprintable.1)).mono fun x hx => ?_
      exact ⟨ne_of_class hx rfl, ne_of_class hx rfl⟩
    exact accepts_choice_tail (mixinDeclaration_refuses hstep) (accepts_choice_head
      (accepts_declaration hprintable.1 hprintable.2.written hnest text h))
  | .mixinCall path, hprintable =>
    obtain ⟨hmixin, hdeclaration⟩ := refuses_before_mixinCall hprintable h
    exact accepts_choice_tail hmixin (accepts_choice_tail hdeclaration
      (accepts_choice_head (accepts_mixinCall hprintable text h)))
  | .rule selectors block, hprintable =>
    obtain ⟨hmixin, hdeclaration, hcall⟩ :=
      refuses_before_rule (hprintable.1 selectors.first List.mem_cons_self) h
    exact accepts_choice_tail hmixin (accepts_choice_tail hdeclaration (accepts_choice_tail hcall
      (accepts_choice_head (accepts_rule hinner hprintable hnest text h))))
  | .variable t value, hprintable =>
    obtain ⟨hmixin, hdeclaration, hcall, hrule⟩ := hvariable h
    exact accepts_choice_tail hmixin (accepts_choice_tail hdeclaration (accepts_choice_tail hcall
      (accepts_choice_tail hrule (accepts_choice_head
        (accepts_variable hinner hprintable hnest hsemicolon text h)))))
  | .variableCall t, hprintable =>
    obtain ⟨hmixin, hdeclaration, hcall, hrule⟩ := hvariable h
    exact accepts_choice_tail hmixin (accepts_choice_tail hdeclaration (accepts_choice_tail hcall
      (accepts_choice_tail hrule (accepts_choice_tail
        (variableDeclaration_refuses_call hprintable h)
        (accepts_choice_head (accepts_variableCall hprintable text h))))))

/-! ## All levels -/

theorem innerItem?_takes (levels : Nat) : TakesInner s (innerItem? s levels) levels := by
  induction levels with
  | zero =>
    intro below h
    omega
  | succ levels ih =>
    intro below h
    obtain rfl : levels = below := by omega
    refine ⟨_, rfl, itemOver_takes ih, fun k hk => itemOver_refuses (hk.mono ?_)⟩
    rintro _ rfl hhead
    exact itemHead_ne hhead rfl (by decide) rfl

/-- Items that can be printed and are nested no deeper than the levels that are left are read. -/
theorem itemAt_takes (levels : Nat) : TakesItems s (itemAt s levels) levels :=
  itemOver_takes (innerItem?_takes levels)

end Grammar

/-! ## Stylesheets -/

/-- Items that can be printed and are nested no deeper than the settings allow are read from every
text that their tokens are woven into, with trivia behind it, as items with the same content. -/
theorem parseStylesheet_woven (s : Settings) (url : Option String) {xs : List Item}
    {text w : List Char} (hprintable : Item.AllPrintable s xs)
    (hnest : Item.nestingAll xs ≤ s.maxDepth)
    (hwoven : Woven s.lineComments (Item.tokensAll xs) text w)
    (hrun : TriviaRun s.lineComments w []) :
    ∃ sheet, parseStylesheet s ⟨text ++ w, url⟩ = .ok sheet ∧
      Item.sameAll xs sheet.items = true := by
  have hnothing : ∀ {p : Char → Prop}, Next s.lineComments p w := next_of_run hrun
  have hitems := accepts_woven_items (itemAt_takes s.maxDepth) hprintable hnest
    (symbol_refuses_next hnothing) (itemOver_refuses hnothing) text hwoven
  have hlevels : (atLevel s fun levels => many (itemAt s levels)) = items s := rfl
  obtain ⟨ys, hread, hsame⟩ := parse_accepted itemLabel url hitems hrun
  refine ⟨⟨ys⟩, ?_, hsame⟩
  obtain ⟨rest, stop, hmatched, hend⟩ := parse_matched hread
  refine parse_of_matched (map_matched.mpr ⟨ys, ?_, rfl⟩) hend
  rw [Grammar.items, atLevel_ofText]
  exact hmatched

/-- An important declaration in a rule, with a comment and blanks between the tokens. -/
theorem rule_woven :
    ∃ xs sheet,
      xs = [.rule ⟨⟨.byType, .owned ['a']⟩, []⟩
        [.declaration (.owned ['b']) (.number ⟨['1'], some ⟨0, 1⟩⟩ none) true]] ∧
      parseStylesheet ⟨1, false⟩ ⟨['a', '/', '*', '*', '/', '{', 'b', ':', ' ', '1', '!', 'i', 'm',
        'p', 'o', 'r', 't', 'a', 'n', 't', ';', '}', '\n'], none⟩ = .ok sheet ∧
      Item.sameAll xs sheet.items = true := by
  have hnone : ∀ {l : List Char}, TriviaRun false [] l := .nil
  have hblank : ∀ {b : Char} {l : List Char}, isBlank b = true → TriviaRun false [b] l :=
    fun hb => triviaRun_piece (.blank hb)
  have hcomment : ∀ {l : List Char}, TriviaRun false ('/' :: '*' :: [] ++ ['*', '/']) l :=
    fun {l} => triviaRun_piece (.block fun h => by simpa using h.length_le)
  have hprintable : Item.AllPrintable ⟨1, false⟩ [.rule ⟨⟨.byType, .owned ['a']⟩, []⟩
      [.declaration (.owned ['b']) (.number ⟨['1'], some ⟨0, 1⟩⟩ none) true]] := by
    refine ⟨⟨fun selector hselector => ?_, ⟨rfl, ⟨['1'], none⟩, rfl⟩, trivial⟩, trivial⟩
    cases List.mem_singleton.mp hselector
    rfl
  have hwoven : Woven false (Item.tokensAll [.rule ⟨⟨.byType, .owned ['a']⟩, []⟩
      [.declaration (.owned ['b']) (.number ⟨['1'], some ⟨0, 1⟩⟩ none) true]])
      ['a', '/', '*', '*', '/', '{', 'b', ':', ' ', '1', '!', 'i', 'm', 'p', 'o', 'r', 't', 'a',
        'n', 't', ';', '}'] ['\n'] :=
    .cons hnone (.cons hcomment (.cons hnone (.cons hnone (.cons (hblank rfl)
      (.cons hnone (.cons hnone (.cons hnone (.cons hnone .nil))))))))
  obtain ⟨sheet, hread, hsame⟩ :=
    parseStylesheet_woven ⟨1, false⟩ none hprintable (by decide) hwoven (hblank rfl)
  exact ⟨_, sheet, rfl, hread, hsame⟩

end LessSyntax
