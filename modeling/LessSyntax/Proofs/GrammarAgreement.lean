import LessSyntax.Proofs.LexemeAgreement
import LessSyntax.Proofs.WovenItem

/-!
# The grammar at the end of the common beginning

Two runs of a rule on texts that begin alike agree as long as they read the common beginning. A
value or a selector never takes more than that. An item may take the semicolon or the brace that
stands behind it, and no more: what follows cannot change how the item is read.

* `valueAt_agrees`, `selectorGroup_agrees`, `mixinPath_agrees`: the parts of items.
* `terminator_leads`, `closeBlock_leads`: the ends of items.
* `itemAt_agrees`, `items_second`: items.
-/

namespace LessSyntax.Grammar

open Rule Cursor

variable {α : Type} {s : Settings} {tails : Tails s.lineComments} {c c' : Cursor}

/-! ## Tokens -/

theorem symbol_refusesEnds {x : Char} (hx : x ≠ tails.closer) :
    RefusesEnds tails (symbol s [x]) :=
  fun _ hk => symbol_refuses_next (hk.mono fun _ hy h => hx (h.symm.trans hy))

/-- A mark that closes nothing, unless nothing is left that it would close. -/
theorem symbol_agrees_of_ne {x : Char} (hx : x ∉ Tails.marks) (hcloser : x ≠ tails.closer) :
    (symbol s [x]).Agrees False (InStep tails) (InStep tails) := by
  have hliteral : (literal [x]).Agrees False (Alongside tails) (Alongside tails) :=
    agrees_literal (by simp) fun y hy h => hx (List.mem_singleton.mp h ▸ hy)
  exact agrees_token (hliteral.mono (fun _ _ h => h.inStep) id) (symbol_refusesEnds hcloser)

/-- What the texts may go on with, and what may be left behind trivia. -/
def edgeMarks : List Char := ')' :: Tails.marks

theorem symbol_agrees {x : Char} (hx : x ∉ edgeMarks) :
    (symbol s [x]).Agrees False (InStep tails) (InStep tails) := by
  refine symbol_agrees_of_ne (fun hmem => hx (List.mem_cons_of_mem _ hmem)) ?_
  rintro rfl
  rcases tails.closer_cases with h | h <;> exact hx (h ▸ by decide)

theorem paren_agrees [hbraced : tails.Braced] :
    (symbol s [')']).Agrees False (InStep tails) (InStep tails) :=
  symbol_agrees_of_ne (by decide) (by rw [hbraced.closer_eq]; decide)

/-- Where the common beginning is used up, the first run finds no end of a call. -/
theorem paren_follows : (symbol s [')']).Follows False (InStep tails) (InStep tails) := by
  intro c c' h
  obtain ⟨hc, -⟩ := h.within
  rcases trivia_cases h with ⟨_, _, _, hskip⟩ | ⟨rest, rest', hskip, hskip', harrived⟩
  · refine .inr ?_
    rw [symbol, token, hskip]
    exact .failed
  have hliteral : ∀ {rest rest' : Cursor}, trivia s c = .matched () rest →
      trivia s c' = .matched () rest' → Alongside tails rest rest' →
      Agree False (Same (InStep tails)) (symbol s [')'] c) (symbol s [')'] c') := by
    intro rest rest' hskip hskip' halong
    have hparen : (literal [')']).Agrees False (Alongside tails) (Alongside tails) :=
      agrees_literal (by simp) (by simp)
    simp only [symbol, token, hskip, hskip', Outcome.bind]
    exact (hparen rest rest' halong).mono (fun _ _ _ _ hK => ⟨hK.1, hK.2.inStep⟩) id
  cases harrived with
  | alike halike => exact .inr (hliteral hskip hskip' halike.alongside)
  | dropping hdrop => exact .inr (hliteral hskip hskip' ⟨_, hdrop⟩)
  | spent hends _ _ hahead =>
    refine .inl (symbol_refuses_next (next_of_trivia hc hskip ?_) c hc rfl)
    rcases hends.first with rfl | rfl <;> simp [hahead]

theorem emptyParens_agrees [tails.Braced] :
    (emptyParens s).Agrees False (InStep tails) (InStep tails) :=
  agrees_both (symbol_agrees (by decide)) paren_agrees

/-- A rule for a name, or for something that begins with a mark. -/
theorem agrees_token_next {rule : Rule α} {p : Char → Prop} (hbrace : p '}') (hparen : p ')')
    (hrule : rule.Agrees False (Alongside tails) (Alongside tails))
    (hrefuses : ∀ l, (∀ x ∈ l.head?, p x) → rule.Refuses l) :
    (token s rule).Agrees False (InStep tails) (InStep tails) := by
  have hcloser : p tails.closer := by
    rcases tails.closer_cases with h | h <;> rwa [h]
  exact agrees_token (hrule.mono (fun _ _ h => h.inStep) id) fun _ hk =>
    token_refuses_next hrefuses (hk.mono fun x (hx : x = tails.closer) => hx ▸ hcloser)

theorem name_token_agrees : (token s name).Agrees False (InStep tails) (InStep tails) :=
  agrees_token_next (p := (isNameChar · = false)) rfl rfl name_agrees fun _ => name_refuses

theorem atName_token_agrees : (token s atName).Agrees False (InStep tails) (InStep tails) :=
  agrees_token_next (p := (· ≠ '@')) (by decide) (by decide) atName_agrees fun _ => atName_refuses

/-! ## Selectors -/

theorem mixinStep_agrees : mixinStep.Agrees False (Alongside tails) (Alongside tails) := by
  refine agrees_choice ?_
  simp only [List.forall_mem_cons, List.not_mem_nil, false_imp_iff, implies_true, and_true]
  exact ⟨agrees_map (nameAfter_agrees (by decide)), agrees_map (nameAfter_agrees (by decide))⟩

theorem mixinStep_token_agrees : (token s mixinStep).Agrees False (InStep tails) (InStep tails) :=
  agrees_token_next (p := fun x => x ≠ '#' ∧ x ≠ '.') (by decide) (by decide) mixinStep_agrees
    fun _ => mixinStep_refuses

theorem mixinName_token_agrees : (token s mixinName).Agrees False (InStep tails) (InStep tails) :=
  agrees_token_next (p := fun x => x ≠ '#' ∧ x ≠ '.') (by decide) (by decide)
    (agrees_map mixinStep_agrees) fun _ h => map_refuses (mixinStep_refuses h)

theorem simpleSelector_agrees :
    (simpleSelector s).Agrees False (InStep tails) (InStep tails) := by
  refine agrees_token ((agrees_choice ?_).mono (fun _ _ h => Alongside.inStep h) id) fun k hk =>
    simpleSelector_refuses (hk.mono fun x hx => ?_)
  · simp only [List.forall_mem_cons, List.not_mem_nil, false_imp_iff, implies_true, and_true]
    exact ⟨agrees_map (nameAfter_agrees (by decide)), agrees_map (nameAfter_agrees (by decide)),
      agrees_map name_agrees, agrees_map (agrees_literal (by simp) (by simp))⟩
  · rw [hx]
    rcases tails.closer_cases with h | h <;> rw [h] <;> decide

theorem selectorGroup_agrees :
    (selectorGroup s).Agrees False (InStep tails) (InStep tails) :=
  agrees_separated1 (fun _ _ h => h.within) simpleSelector_agrees simpleSelector_advances.proceeds
    (symbol_agrees (by decide)).leads (symbol_advances (by simp))

theorem mixinJoint_agrees : (mixinJoint s).Agrees False (InStep tails) (InStep tails) :=
  agrees_preceded (agrees_opt (symbol_agrees (by decide)) fun _ _ => id) mixinStep_token_agrees

theorem mixinPath_agrees : (mixinPath s).Agrees False (InStep tails) (InStep tails) :=
  agrees_map (agrees_both mixinStep_token_agrees
    (agrees_many (fun _ _ h => h.within) mixinJoint_agrees mixinJoint_advances
      (fun _ _ => .inl) id nofun))

/-! ## Values -/

section

variable {inner? : Option (Rule Value)}
  (hinner : ∀ argument ∈ inner?, argument.Agrees False (InStep tails) (InStep tails))
  (hproceeds : ∀ argument ∈ inner?, Proceeds argument)
include hinner hproceeds

theorem arguments_agrees {argument : Rule Value} (h : argument ∈ inner?) :
    (arguments s argument).Agrees False (InStep tails) (InStep tails) := by
  have hlist : (separated1 argument (symbol s [',']) "function").Agrees False (InStep tails)
      (InStep tails) :=
    agrees_separated1 (fun _ _ h => h.within) (hinner argument h) (hproceeds argument h)
      (symbol_agrees (by decide)).leads (symbol_advances (by simp))
  exact agrees_map (agrees_cut_of_follows (follows_map
    (follows_both (agrees_opt hlist fun _ _ => id) paren_follows)))

theorem callOver_agrees :
    (callOver s inner?).Agrees False (Alongside tails) (InStep tails) := by
  intro c c' h
  unfold callOver
  rcases name_cases h with
    ⟨callee, rest, rest', hname, hname', k, hrest⟩ | ⟨⟨_, _, hname⟩, ⟨_, _, hname'⟩⟩
  · rw [hname, hname']
    dsimp only
    rw [hrest.startsWith (by simp) (by simp)]
    split
    · rename_i hparen
      cases hargument : inner? with
      | none => exact .failed
      | some argument =>
        have hopened := hrest.advance (hrest.length_le (by simp) (by simp) hparen)
        refine (arguments_agrees hinner hproceeds hargument (rest.advance 1).nested
          (rest'.advance 1).nested (.inl ⟨_, hopened.withDepth _ _⟩)).bind ?_
          fun _ _ _ hd => hd.elim
        rintro found stop _ stop' ⟨rfl, hstop⟩
        exact .matched ⟨rfl, hstop.withDepth _ _⟩
    · exact .missed
  · rw [hname, hname']
    exact .missed

theorem primitiveOver_agrees :
    (primitiveOver s inner?).Agrees False (InStep tails) (InStep tails) := by
  have hstep : ∀ {rule : Rule Value}, rule.Agrees False (Alongside tails) (Alongside tails) →
      rule.Agrees False (Alongside tails) (InStep tails) :=
    fun h => h.mono (fun _ _ h => h.inStep) id
  refine agrees_token (agrees_choice ?_) ?_
  · simp only [List.forall_mem_cons, List.not_mem_nil, false_imp_iff, implies_true, and_true]
    exact ⟨hstep quotedString_agrees, hstep color_agrees, hstep number_agrees, hstep url_agrees,
      callOver_agrees hinner hproceeds, hstep (agrees_map atName_agrees),
      hstep (agrees_map (nameAfter_agrees (by decide))), hstep (agrees_map name_agrees)⟩
  · rintro _ ⟨w, l, rfl, hrun, hstop, hl⟩
    refine primitive_refuses hrun hstop fun x hx => ?_
    rw [hl x hx]
    rcases tails.closer_cases with h | h <;> rw [h] <;> decide

theorem slashListOver_agrees :
    (slashListOver s inner?).Agrees False (InStep tails) (InStep tails) :=
  agrees_map (agrees_separated1 (fun _ _ h => h.within) (primitiveOver_agrees hinner hproceeds)
    (primitiveOver_advances hproceeds).proceeds (symbol_agrees (by decide)).leads
    (symbol_advances (by simp)))

theorem spaceListOver_agrees :
    (spaceListOver s inner?).Agrees False (InStep tails) (InStep tails) :=
  agrees_map (agrees_many1 (fun _ _ h => h.within) (slashListOver_agrees hinner hproceeds)
    (slashListOver_advances hproceeds))

theorem commaListOver_agrees :
    (commaListOver s inner?).Agrees False (InStep tails) (InStep tails) :=
  agrees_map (agrees_separated1 (fun _ _ h => h.within) (spaceListOver_agrees hinner hproceeds)
    (spaceListOver_advances hproceeds).proceeds (symbol_agrees (by decide)).leads
    (symbol_advances (by simp)))

end

theorem argument?_agrees (levels : Nat) :
    ∀ argument ∈ argument? s levels, argument.Agrees False (InStep tails) (InStep tails) := by
  induction levels with
  | zero => simp [argument?]
  | succ levels ih =>
    intro argument h
    cases h
    exact spaceListOver_agrees ih (argument?_proceeds levels)

theorem valueAt_agrees (levels : Nat) :
    (valueAt s levels).Agrees False (InStep tails) (InStep tails) :=
  commaListOver_agrees (argument?_agrees levels) (argument?_proceeds levels)

/-! ## The ends of items -/

/-- The word behind the exclamation mark. -/
def importantMark : Rule Bool := fun start =>
  match name start with
  | .matched word stop =>
    if isLowered importantWord word.chars then .matched true stop
    else .missed start (quoted importantWord)
  | _ => .missed start (quoted importantWord)

theorem importantMark_agrees :
    importantMark.Agrees False (Alongside tails) (Alongside tails) := by
  intro c c' h
  unfold importantMark
  rcases name_cases h with
    ⟨word, rest, rest', hname, hname', hrest⟩ | ⟨⟨_, _, hname⟩, ⟨_, _, hname'⟩⟩
  · rw [hname, hname']
    dsimp only
    split
    · exact .matched ⟨rfl, hrest⟩
    · exact .missed
  · rw [hname, hname']
    exact .missed

theorem importantMark_refuses {l : List Char} (h : ∀ x ∈ l.head?, isNameChar x = false) :
    importantMark.Refuses l := by
  intro c hc hahead
  obtain ⟨place, expected, hname⟩ := name_refuses h c hc hahead
  refine ⟨c, quoted importantWord, ?_⟩
  rw [importantMark, hname]

theorem important_agrees : (important s).Agrees False (InStep tails) (InStep tails) := by
  refine agrees_bind (agrees_opt (symbol_agrees (by decide)) fun _ _ => id) (fun mark => ?_) nofun
  cases mark with
  | none => exact fun _ _ h => .matched ⟨rfl, h⟩
  | some _ =>
    exact agrees_token_next (p := (isNameChar · = false)) rfl rfl importantMark_agrees
      fun _ => importantMark_refuses

/-- Behind trivia a semicolon or a brace may be what stands behind the common beginning. -/
theorem symbol_alike {x : Char} (hx : x ≠ '\n') {rest rest' : Cursor}
    (hskip : trivia s c = .matched () rest) (hskip' : trivia s c' = .matched () rest')
    (h : Alike tails rest rest') :
    Agree False (Same (BehindItem tails)) (symbol s [x] c) (symbol s [x] c') := by
  have hliteral := literal_behindItem hx rest rest' h
  simp only [symbol, token, hskip, hskip', Outcome.bind]
  exact hliteral.mono (fun _ _ _ _ hK => ⟨hK.1, hK.2.imp_left Alongside.inStep⟩) id

/-- At the end of the text nothing has to end an item. -/
theorem terminator_end (h : c.Nears s.lineComments []) :
    ∃ v rest, terminator s c = .matched v rest ∧ rest.Within ∧ rest.ahead = [] := by
  obtain ⟨rest, hskip, hrest, hnil⟩ := trivia_nears h noTrivia_nil
  have hnext : ∀ {p : Char → Prop}, Next s.lineComments p c.ahead :=
    next_of_trivia h.1 hskip (by simp [hnil])
  have hend : token s (endOf "end of input") c = .matched () rest := by
    simp [token, hskip, endOf, hrest.atEnd_iff.mpr hnil]
  refine ⟨none, rest, ?_, hrest, hnil⟩
  refine choice_tail (map_misses (symbol_refuses_next hnext c h.1 rfl)) ?_
  refine choice_tail (map_misses ?_) (choice_head ?_)
  · obtain ⟨place, expected, hmiss⟩ := symbol_refuses_next (x := '}') hnext c h.1 rfl
    exact ⟨place, expected, by rw [Rule.peek, hmiss]⟩
  · rw [map, hend]
    rfl

/-- Before a brace nothing has to end an item, and the brace is not read. -/
theorem terminator_brace (h : c.Nears s.lineComments ['}']) :
    ∃ v, terminator s c = .matched v c := by
  obtain ⟨rest, hskip, hrest, hbrace⟩ := trivia_nears h noTrivia_brace
  have hnext : Next s.lineComments (· = '}') c.ahead := next_of_trivia h.1 hskip (by simp [hbrace])
  have hpeek : Rule.peek (symbol s ['}']) c = .matched (rest.next 1) c := by
    rw [Rule.peek, symbol_one hskip hbrace]
  have hsemicolon : MissesAt (symbol s [';']) c :=
    symbol_refuses_next (hnext.mono (by rintro _ rfl; decide)) c h.1 rfl
  refine ⟨some (rest.next 1), choice_tail (map_misses hsemicolon) (choice_head ?_)⟩
  rw [map, hpeek]
  rfl

theorem terminator_nears {l : List Char} (hl : l = [] ∨ l = ['}'])
    (h : c.Nears s.lineComments l) :
    ∃ v rest, terminator s c = .matched v rest ∧ rest.Nears s.lineComments l := by
  rcases hl with rfl | rfl
  · obtain ⟨v, rest, hmatched, hrest, hnil⟩ := terminator_end h
    exact ⟨v, rest, hmatched, nears_self hrest hnil⟩
  · obtain ⟨v, hmatched⟩ := terminator_brace h
    exact ⟨v, c, hmatched, h⟩

/-- The semicolon behind trivia, with what stands behind it. -/
theorem semicolon_matched {rest : Cursor} {l : List Char} (hskip : trivia s c = .matched () rest)
    (hrest : rest.Within) (hahead : rest.ahead = ';' :: l) :
    ∃ v stop, symbol s [';'] c = .matched v stop ∧ stop.Nears s.lineComments l := by
  exact ⟨_, _, symbol_one hskip hahead, nears_self ((hrest.reads_one hahead).within hrest)
    (hrest.ahead_advance_one hahead)⟩

theorem choice_fails {rule : Rule α} {rules : List (Rule α)} {label : Option String}
    {place : Cursor} {expected blamed : String} (h : rule c = .failed place expected blamed) :
    choice (rule :: rules) label c = .failed place expected blamed := by
  cases rules with
  | nil => simp only [choice, firstOf, h]; cases label <;> rfl
  | cons next rules =>
    simp only [choice, firstOf, h, Outcome.orElse]
    cases label <;> rfl

/-- Where trivia ends and both texts go on alike, they do go on. -/
theorem ahead_ne_nil {rest rest' : Cursor} (h : Alike tails rest rest')
    (hstop : NoTrivia s.lineComments rest.ahead) (hstop' : NoTrivia s.lineComments rest'.ahead) :
    rest.ahead ≠ [] ∧ rest'.ahead ≠ [] := by
  obtain ⟨k, h, hk⟩ := h
  rw [h.ahead] at hstop ⊢
  rw [h.ahead'] at hstop' ⊢
  rcases k with _ | ⟨x, k⟩
  · cases tails with
    | closed => exact absurd (hstop'.blank '\n' rfl) (by decide)
    | opened => exact absurd (hstop.blank '\n' rfl) (by decide)
    | joined => exact ⟨by simp, by simp⟩
    | dropped => exact absurd trivial (hk rfl)
  · exact ⟨by simp, by simp⟩

/-- Where the first text has ended, trivia apart, the common beginning is used up in the second one
as well. -/
theorem nears_second (h : InStep tails c c') (hend : c.Nears s.lineComments []) :
    ∃ l, tails.Ends [] l ∧ c'.Nears s.lineComments l := by
  obtain ⟨rest, hskip, -, hnil⟩ := trivia_nears hend noTrivia_nil
  obtain ⟨rest', hskip', harrived⟩ := trivia_inStep h hskip
  cases harrived with
  | spent hends _ _ hahead hahead' =>
    obtain rfl := hahead.symm.trans hnil
    exact ⟨_, hends, nears_of_trivia h.within.2 hskip' hahead'⟩
  | dropping hdrop => exact nomatch hdrop.ahead.symm.trans hnil
  | alike halike hstop hstop' => exact absurd hnil (ahead_ne_nil halike hstop hstop').1

/-- Before the end of the common beginning each way to end an item is the same in both texts. -/
theorem terminator_alike {rest rest' : Cursor} (h : InStep tails c c')
    (hskip : trivia s c = .matched () rest) (hskip' : trivia s c' = .matched () rest')
    (halike : Alike tails rest rest') (hstop : NoTrivia s.lineComments rest.ahead)
    (hstop' : NoTrivia s.lineComments rest'.ahead) :
    Agree False (fun _ rest _ rest' => BehindItem tails rest rest') (terminator s c)
      (terminator s c') := by
  have hsemicolon : Agree False (fun _ rest _ rest' => BehindItem tails rest rest')
      (map some (symbol s [';']) c) (map some (symbol s [';']) c') :=
    (symbol_alike (by decide) hskip hskip' halike).map fun _ _ _ _ hK => hK.2
  have hbrace : Agree False (fun _ rest _ rest' => BehindItem tails rest rest')
      (Rule.peek (symbol s ['}']) c) (Rule.peek (symbol s ['}']) c') := by
    have hsymbol := symbol_alike (x := '}') (by decide) hskip hskip' halike
    unfold Rule.peek
    generalize symbol s ['}'] c = a at hsymbol ⊢
    generalize symbol s ['}'] c' = b at hsymbol ⊢
    cases hsymbol with
    | matched => exact .matched (.inl h)
    | missed => exact .missed
    | failed => exact .failed
    | ended hd => exact hd.elim
  have hend : Agree False (fun _ rest _ rest' => BehindItem tails rest rest')
      (token s (endOf "end of input") c) (token s (endOf "end of input") c') := by
    obtain ⟨hwithin, hwithin'⟩ := halike.alongside.inStep.within
    obtain ⟨hne, hne'⟩ := ahead_ne_nil halike hstop hstop'
    have hatEnd : rest.atEnd = false :=
      Bool.eq_false_iff.mpr fun hatEnd => hne (hwithin.atEnd_iff.mp hatEnd)
    have hatEnd' : rest'.atEnd = false :=
      Bool.eq_false_iff.mpr fun hatEnd => hne' (hwithin'.atEnd_iff.mp hatEnd)
    simp only [token, hskip, hskip', Outcome.bind, endOf, hatEnd, hatEnd']
    exact .missed
  exact (hsemicolon.orElse ((hbrace.map fun _ _ _ _ hK => hK).orElse
    (hend.map fun _ _ _ _ hK => hK))).relabel _

theorem terminator_leads [tails.Braced] :
    (terminator s).Leads False (InStep tails) (BehindItem tails) := by
  intro c c' h
  obtain ⟨hc, hc'⟩ := h.within
  rcases trivia_cases h with ⟨place, expected, blamed, hskip⟩ |
    ⟨rest, rest', hskip, hskip', harrived⟩
  · have hfails : terminator s c = .failed place expected blamed :=
      choice_fails (by rw [map, symbol, token, hskip]; rfl)
    rw [hfails]
    exact .failed
  cases harrived with
  | spent hends _ _ hahead hahead' =>
    obtain ⟨hl, hl'⟩ := hends.nil_or_brace
    obtain ⟨v, stop, hmatched, hstop⟩ := terminator_nears hl (nears_of_trivia hc hskip hahead)
    obtain ⟨v', stop', hmatched', hstop'⟩ :=
      terminator_nears hl' (nears_of_trivia hc' hskip' hahead')
    rw [hmatched, hmatched']
    exact .matched (.inl (.inr ⟨_, _, hends, hstop, hstop'⟩))
  | @dropping others hothers _ _ hdrop =>
    obtain ⟨v, stop, hsemicolon, hstop⟩ := semicolon_matched hskip hdrop.within hdrop.ahead
    have hmatched : terminator s c = .matched (some v) stop :=
      choice_head (by rw [map, hsemicolon]; rfl)
    obtain ⟨v', stop', hmatched', hstop'⟩ :=
      terminator_nears hothers (nears_of_trivia hc' hskip' hdrop.ahead')
    rw [hmatched, hmatched']
    exact .matched (.inl (.inr ⟨others, others, ⟨hothers, rfl⟩, hstop, hstop'⟩))
  | alike halike hstop hstop' => exact terminator_alike h hskip hskip' halike hstop hstop'

/-- The semicolon that may stand behind a block. -/
theorem optSemicolon_leads [tails.Braced] :
    (opt (symbol s [';'])).Leads False (InStep tails) (BehindItem tails) := by
  intro c c' h
  obtain ⟨hc, hc'⟩ := h.within
  rcases trivia_cases h with ⟨_, _, _, hskip⟩ | ⟨rest, rest', hskip, hskip', harrived⟩
  · rw [opt, symbol, token, hskip]
    exact .failed
  have hrefuses {d rest : Cursor} (hd : d.Within) (hskip : trivia s d = .matched () rest)
      (hahead : rest.ahead = [] ∨ rest.ahead = ['}']) : MissesAt (symbol s [';']) d := by
    refine symbol_refuses_next (next_of_trivia hd hskip ?_) d hd rfl
    rcases hahead with hahead | hahead <;> simp [hahead]
  cases harrived with
  | spent hends _ _ hahead hahead' =>
    obtain ⟨rfl, rfl⟩ := And.intro hahead hahead'
    rw [opt_of_misses (hrefuses hc hskip hends.nil_or_brace.1),
      opt_of_misses (hrefuses hc' hskip' hends.nil_or_brace.2)]
    exact .matched (.inl h)
  | @dropping others hothers _ _ hdrop =>
    obtain ⟨v, stop, hsemicolon, hstop⟩ := semicolon_matched hskip hdrop.within hdrop.ahead
    have hmiss : MissesAt (symbol s [';']) c' :=
      hrefuses hc' hskip' (by rwa [hdrop.ahead'])
    rw [opt, hsemicolon, opt_of_misses hmiss]
    exact .matched (.inl (.inr ⟨others, others, ⟨hothers, rfl⟩, hstop,
      nears_of_trivia hc' hskip' hdrop.ahead'⟩))
  | alike halike =>
    exact (agree_opt (symbol_alike (by decide) hskip hskip' halike) (.inl h)).mono
      (fun _ _ _ _ hK => hK.2) id

/-! ## Blocks -/

theorem failsAtEnd_cut {rule : Rule α} {context : String} (h : rule.Refuses []) :
    (cut rule context).FailsAtEnd := by
  intro c hc hnil
  obtain ⟨place, expected, hmiss⟩ := h c hc hnil
  exact ⟨place, expected, context, by rw [cut, hmiss]⟩

theorem closeBlock_refuses {k : List Char} (hk : Next s.lineComments (· ≠ '}') k) :
    (closeBlock s).Refuses k := by
  refine choice_refuses fun r hr => ?_
  obtain rfl := List.mem_singleton.mp hr
  exact symbol_refuses_next hk

theorem closeBlock_failsAtEnd (context : String) : (cut (closeBlock s) context).FailsAtEnd :=
  failsAtEnd_cut (closeBlock_refuses next_nil)

/-- A mark behind trivia, where the text ends with it. -/
theorem symbol_nears {x : Char} (hstop : NoTrivia s.lineComments [x])
    (h : c.Nears s.lineComments [x]) :
    ∃ t stop, symbol s [x] c = .matched t stop ∧ stop.Within ∧ stop.ahead = [] := by
  obtain ⟨rest, hskip, hrest, hmark⟩ := trivia_nears h hstop
  exact ⟨_, _, symbol_one hskip hmark, (hrest.reads_one hmark).within hrest,
    hrest.ahead_advance_one hmark⟩

theorem closeBlock_nears (h : c.Nears s.lineComments ['}']) :
    ∃ t stop, closeBlock s c = .matched t stop ∧ stop.Within ∧ stop.ahead = [] := by
  obtain ⟨t, stop, hsymbol, hstop⟩ := symbol_nears noTrivia_brace h
  exact ⟨t, stop, choice_head hsymbol, hstop⟩

/-- The brace that closes a block. Where the first run reads one behind the common beginning, it is
at the end of its text, or else the second one would be there. -/
theorem closeBlock_leads (context : String) :
    (cut (closeBlock s) context).Leads tails.Doomed (InStep tails) (BehindItem tails) := by
  intro c c' h
  obtain ⟨hc, hc'⟩ := h.within
  rcases trivia_cases h with ⟨place, expected, blamed, hskip⟩ |
    ⟨rest, rest', hskip, hskip', harrived⟩
  · have hfails : closeBlock s c = .failed place expected blamed :=
      choice_fails (by rw [symbol, token, hskip]; rfl)
    rw [cut, hfails]
    exact .failed
  have hfails : (∀ x ∈ rest.ahead.head?, x ≠ '}') →
      Agree tails.Doomed (fun _ rest _ rest' => BehindItem tails rest rest')
        (cut (closeBlock s) context c) (cut (closeBlock s) context c') := by
    intro hhead
    obtain ⟨place, expected, hmiss⟩ :=
      closeBlock_refuses (next_of_trivia hc hskip hhead) c hc rfl
    rw [cut, hmiss]
    exact .failed
  cases harrived with
  | dropping hdrop => exact hfails (by simp [hdrop.ahead])
  | alike halike =>
    refine agree_cut ?_
    rw [closeBlock, choice_singleton]
    exact ((symbol_alike (by decide) hskip hskip' halike).mono (fun _ _ _ _ hK => hK.2)
      False.elim).relabel _
  | spent hends _ _ hahead hahead' =>
    rcases hends.first with rfl | rfl
    · exact hfails (by simp [hahead])
    obtain ⟨t, stop, hclose, hstop, hnil⟩ := closeBlock_nears (nears_of_trivia hc hskip hahead)
    rw [cut, hclose]
    cases tails with
    | closed => cases hends.1
    | opened => exact .ended trivial hstop hnil
    | joined => exact hends.elim
    | dropped =>
      obtain ⟨-, rfl⟩ := hends
      obtain ⟨t', stop', hclose', hstop', hnil'⟩ :=
        closeBlock_nears (nears_of_trivia hc' hskip' hahead')
      rw [cut, hclose']
      exact .matched (.inl (.inr ⟨[], [], ⟨.inl rfl, rfl⟩, nears_self hstop hnil,
        nears_self hstop' hnil'⟩))

/-- A commitment behind a rule that does not miss. -/
theorem cut_terminated {β : Type} {first : Rule α} {after : Rule β} {context : String}
    (hfirst : NeverMisses first) :
    cut (terminated first after) context = terminated first (cut after context) := by
  funext c
  unfold cut terminated map both
  cases hoc : first c with
  | missed place expected => exact absurd ⟨place, expected, hoc⟩ (hfirst c)
  | failed => rfl
  | matched v rest =>
    dsimp only [Outcome.bind, Outcome.map]
    cases after rest <;> rfl

/-- What is known about the rule for the items in a block. -/
structure InnerAgrees (tails : Tails s.lineComments) (inner : Rule Item) : Prop where
  agrees : inner.Agrees tails.Doomed (InStep tails) (BehindItem tails)
  advances : inner.Advances
  refuses : inner.Refuses []

/-- The items in a block do not take what stands behind the common beginning: in the first text
nothing would be left to close the block. -/
theorem many_agrees {inner : Rule Item} (hinner : InnerAgrees tails inner) :
    (many inner).Agrees True (InStep tails) (InStep tails) :=
  agrees_many (fun _ _ h => h.within) hinner.agrees hinner.advances
    (fun _ _ h => h.imp_right fun h => ⟨trivial, h.ahead⟩) (fun _ => trivial)
    fun _ => hinner.refuses

theorem variableEnd_cases (v : Value) :
    ((∃ block, v = .ruleset block) ∧ variableEnd s v = opt (symbol s [';'])) ∨
      variableEnd s v = terminator s := by
  cases v with
  | ruleset block => exact .inl ⟨⟨block, rfl⟩, rfl⟩
  | _ => exact .inr rfl

theorem variableEnd_leads [tails.Braced] (v : Value) :
    (variableEnd s v).Leads False (InStep tails) (BehindItem tails) := by
  rcases variableEnd_cases v with ⟨-, h⟩ | h
  · rw [h]
    exact optSemicolon_leads
  · rw [h]
    exact terminator_leads

theorem variableEnd_end {v : Value} (hc : c.Within) (hnil : c.ahead = []) :
    ∃ t rest, variableEnd s v c = .matched t rest ∧ rest.Within ∧ rest.ahead = [] := by
  rcases variableEnd_cases v with ⟨-, h⟩ | h
  · rw [h]
    exact ⟨none, c, opt_of_misses (symbol_refuses_next next_nil c hc hnil), hc, hnil⟩
  · rw [h]
    exact terminator_end (nears_self hc hnil)

/-- No semicolon stands behind the end of an item. -/
theorem semicolon_past (h : Past tails c c') :
    MissesAt (symbol s [';']) c ∧ MissesAt (symbol s [';']) c' := by
  refine ⟨symbol_refuses_next next_nil c h.within h.ahead, ?_⟩
  obtain ⟨mark, hjoins, hsecond⟩ := h.ahead'
  cases tails with
  | closed | opened | dropped => exact hjoins.elim
  | joined mark others hmark hothers =>
    exact symbol_refuses_next hothers c' h.within' (List.cons.inj hsecond).2.symm

/-- The cursors behind the value of a variable. Only a block takes what stands behind the common
beginning. -/
def BehindValue (tails : Tails s.lineComments) (v : Value) (rest : Cursor) (v' : Value)
    (rest' : Cursor) : Prop :=
  v = v' ∧ (InStep tails rest rest' ∨ Past tails rest rest' ∧ ∃ block, v = .ruleset block)

section

variable {levels : Nat} {inner? : Option (Rule Item)}
  (hinner : ∀ inner ∈ inner?, InnerAgrees tails inner)
include hinner

theorem blockOver_agrees :
    (blockOver s inner?).Agrees tails.Doomed (InStep tails) (BehindItem tails) := by
  intro c c' h
  have hopen : Agree False (Same (InStep tails)) (symbol s ['{'] c) (symbol s ['{'] c') :=
    symbol_agrees (by decide) c c' h
  refine hopen.bind ?_ fun _ _ _ hd => hd.elim
  rintro _ rest _ rest' ⟨-, hrest⟩
  cases hsome : inner? with
  | none => exact .failed
  | some inner =>
    have hitems : (cut (terminated (many inner) (closeBlock s)) "block").Agrees tails.Doomed
        (InStep tails) (BehindItem tails) := by
      have hnever : NeverMisses (many inner) := fun c => neverMisses_manyUpTo inner c.room c
      rw [cut_terminated hnever]
      exact agrees_terminated (many_agrees (hinner inner hsome)) (closeBlock_leads "block")
        fun _ => closeBlock_failsAtEnd "block"
    refine (hitems rest.nested rest'.nested (hrest.withDepth _ _)).bind ?_
      fun _ stop _ hd hstop hnil => .ended hd hstop hnil
    rintro items stop _ stop' ⟨rfl, hstop⟩
    exact .matched ⟨rfl, hstop.withDepth _ _⟩

/-! ## Items -/

theorem mixinDeclarationOver_agrees [tails.Braced] :
    (mixinDeclarationOver s inner?).Agrees tails.Doomed (InStep tails) (BehindItem tails) :=
  agrees_map (agrees_both (agrees_terminated mixinName_token_agrees emptyParens_agrees.leads nofun)
    (blockOver_agrees hinner))

theorem qualifiedRuleOver_agrees :
    (qualifiedRuleOver s inner?).Agrees tails.Doomed (InStep tails) (BehindItem tails) :=
  agrees_map (agrees_both selectorGroup_agrees (blockOver_agrees hinner))

theorem variableValueOver_agree (h : InStep tails c c') :
    Agree tails.Doomed (BehindValue tails) (variableValueOver s levels inner? c)
      (variableValueOver s levels inner? c') := by
  have hblock : Agree tails.Doomed (BehindValue tails) (rulesetOver s inner? c)
      (rulesetOver s inner? c') := by
    refine (blockOver_agrees hinner c c' h).map ?_
    rintro block rest _ rest' ⟨rfl, hrest⟩
    exact ⟨rfl, hrest.imp_right fun hpast => ⟨hpast, block, rfl⟩⟩
  have hvalue : Agree tails.Doomed (BehindValue tails) (valueAt s levels c)
      (valueAt s levels c') :=
    (valueAt_agrees levels c c' h).mono (fun _ _ _ _ hK => ⟨hK.1, .inl hK.2⟩) False.elim
  exact (hblock.orElse hvalue).relabel _

theorem variableDeclarationOver_agrees [tails.Braced] :
    (variableDeclarationOver s levels inner?).Agrees tails.Doomed (InStep tails)
      (BehindItem tails) := by
  refine agrees_bind
    (agrees_terminated atName_token_agrees (symbol_agrees (by decide)).leads nofun)
    (fun declared => ?_) nofun
  intro c c' h
  refine (agree_cut (variableValueOver_agree hinner h)).bind ?_ ?_
  · rintro v rest _ rest' ⟨rfl, hrest | ⟨hpast, block, rfl⟩⟩
    · exact ((agree_cut (variableEnd_leads v rest rest' hrest)).mono (fun _ _ _ _ hK => hK)
        False.elim).map fun _ _ _ _ hK => ⟨rfl, hK⟩
    · obtain ⟨hmiss, hmiss'⟩ := semicolon_past hpast
      simp only [variableEnd, cut, opt_of_misses hmiss, opt_of_misses hmiss']
      exact .matched ⟨rfl, .inr hpast⟩
  · intro v rest _ hd hrest hnil
    obtain ⟨t, stop, hend, hstop, hstopped⟩ := variableEnd_end (v := v) (s := s) hrest hnil
    simp only [cut, hend]
    exact .ended hd hstop hstopped

end

theorem declarationAt_agrees [tails.Braced] (levels : Nat) :
    (declarationAt s levels).Agrees False (InStep tails) (BehindItem tails) := by
  refine agrees_bind (agrees_terminated name_token_agrees (symbol_agrees (by decide)).leads nofun)
    (fun declared => ?_) nofun
  exact agrees_map (agrees_cut (agrees_both (valueAt_agrees levels)
    (agrees_terminated important_agrees terminator_leads nofun)))

theorem mixinCall_agrees [tails.Braced] :
    (mixinCall s).Agrees False (InStep tails) (BehindItem tails) :=
  agrees_map (agrees_terminated (agrees_terminated mixinPath_agrees emptyParens_agrees.leads nofun)
    (leads_cut terminator_leads) nofun)

theorem variableCall_agrees [tails.Braced] :
    (variableCall s).Agrees False (InStep tails) (BehindItem tails) :=
  agrees_map (agrees_terminated
    (agrees_terminated atName_token_agrees emptyParens_agrees.leads nofun)
    (leads_cut terminator_leads) nofun)

theorem itemOver_agrees [tails.Braced] {levels : Nat} {inner? : Option (Rule Item)}
    (hinner : ∀ inner ∈ inner?, InnerAgrees tails inner) :
    (itemOver s levels inner?).Agrees tails.Doomed (InStep tails) (BehindItem tails) := by
  refine agrees_choice ?_
  simp only [List.forall_mem_cons, List.not_mem_nil, false_imp_iff, implies_true, and_true]
  exact ⟨mixinDeclarationOver_agrees hinner,
    (declarationAt_agrees levels).mono (fun _ _ => id) False.elim,
    mixinCall_agrees.mono (fun _ _ => id) False.elim, qualifiedRuleOver_agrees hinner,
    variableDeclarationOver_agrees hinner, variableCall_agrees.mono (fun _ _ => id) False.elim⟩

theorem innerItem?_agrees [tails.Braced] (levels : Nat) :
    ∀ inner ∈ innerItem? s levels, InnerAgrees tails inner := by
  induction levels with
  | zero => simp [innerItem?]
  | succ levels ih =>
    intro inner h
    cases h
    exact ⟨itemOver_agrees ih, itemOver_advances (innerItem?_proceeds levels),
      itemOver_refuses next_nil⟩

theorem itemAt_agrees [tails.Braced] (levels : Nat) :
    (itemAt s levels).Agrees tails.Doomed (InStep tails) (BehindItem tails) :=
  itemOver_agrees (innerItem?_agrees levels)

/-- Items up to the end of the first text, where it joins no other one. The second run reads the
same items and uses the common beginning up. -/
theorem items_second [tails.Braced] {levels : Nat} {xs : List Item} {mid : Cursor}
    (h : InStep tails c c')
    (hrun : many (itemAt s levels) c = .matched xs mid) (hend : mid.Nears s.lineComments [])
    (hdoomed : ¬ tails.Doomed) (hapart : ∀ mark, ¬ tails.Joins mark) :
    ∃ mid' l, many (itemAt s levels) c' = .matched xs mid' ∧ tails.Ends [] l ∧
      mid'.Nears s.lineComments l := by
  have hitems : (many (itemAt s levels)).Agrees False (InStep tails) (InStep tails) :=
    agrees_many (fun _ _ h => h.within) (itemAt_agrees levels) (itemAt_advances levels)
      (fun c c' h => .inl (h.resolve_right fun hpast => hpast.ahead'.elim fun mark hmark =>
        hapart mark hmark.1)) hdoomed nofun
  have hagree := hitems c c' h
  rw [hrun] at hagree
  generalize many (itemAt s levels) c' = b at hagree ⊢
  cases hagree with
  | ended hd => exact hd.elim
  | @matched _ _ _ mid' hK =>
    obtain ⟨rfl, hmid⟩ := hK
    obtain ⟨l, hends, hend'⟩ := nears_second hmid hend
    exact ⟨mid', l, rfl, hends, hend'⟩

end LessSyntax.Grammar
