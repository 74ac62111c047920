import LessSyntax.Proofs.Concatenation

/-!
# Stylesheets in a block

The text of a stylesheet is written into the block of a rule. A newline before the closing brace
ends a comment that would reach over the brace. The block holds the same items, one level deeper
and further on; and what cannot be read as a stylesheet cannot be read in the block, nor what would
close the block before its end.

* `items_closed_iff`: the items of a text, with and without the end of a block behind it.
* `enclosed_iff`: a rule with a block, and the items in it.
* `parseStylesheet_enclosed_iff`: the stylesheet, and the rule that encloses it.
-/

namespace LessSyntax

open Grammar Rule Cursor

variable {s : Settings} {tails : Tails s.lineComments} {c c' mid : Cursor} {xs ys : List Item}
  {levels : Nat} {cs : List Char}

/-! ## The end of the block -/

theorem inStep_closed {mark : Char} (hmark : mark = '}' ∨ mark = ')') (cs : List Char) :
    InStep (.closed mark hmark : Tails s.lineComments) (ofText cs) (ofText (cs ++ ['\n', mark])) :=
  .inl ⟨cs, within_ofText _, within_ofText _, rfl, (List.append_nil cs).symm, rfl,
    fun _ h => nomatch h⟩

theorem inStep_opened (cs : List Char) :
    InStep (.opened : Tails s.lineComments) (ofText (cs ++ ['\n', '}'])) (ofText cs) :=
  .inl ⟨cs, within_ofText _, within_ofText _, rfl, rfl, (List.append_nil cs).symm,
    fun _ h => nomatch h⟩

/-- Where the end of the first text closes the block, the second text has ended. A brace that
closes the block before leaves another one behind it. -/
theorem nears_of_opened {t : Text} {stop : Cursor}
    (h : InStep (.opened : Tails s.lineComments) c c') (hclose : closeBlock s c = .matched t stop)
    (hend : stop.Nears s.lineComments []) : c'.Nears s.lineComments [] := by
  obtain ⟨hc, hc'⟩ := h.within
  rw [closeBlock, choice_singleton, relabel_matched] at hclose
  obtain ⟨v, rest, hskip, hliteral⟩ := Outcome.bind_matched.mp hclose
  obtain ⟨hstarts, -, hstop⟩ := literal_matched hliteral
  obtain ⟨rest', hskip', harrived⟩ := trivia_inStep h hskip
  cases harrived with
  | spent hends _ _ _ hnil =>
    obtain ⟨-, rfl⟩ := hends
    exact nears_of_trivia hc' hskip' hnil
  | alike halike _ _ =>
    obtain ⟨k, habreast, -⟩ := halike
    rw [startsWith_one, habreast.ahead] at hstarts
    rcases k with _ | ⟨x, k⟩
    · cases hstarts
    · have hmore : Abreast .opened k (rest.advance 1) (rest'.advance 1) :=
        habreast.advance (Nat.le_add_left 1 k.length)
      have hahead : stop.ahead = k ++ ['\n', '}'] := by
        rw [hstop]
        exact hmore.ahead
      obtain ⟨-, w, hrest, hrun⟩ := hend
      rw [List.append_nil] at hrest
      rw [← hrest, hahead, ← List.singleton_append, ← List.append_assoc] at hrun
      obtain ⟨-, u, inner, hinner, hline⟩ := hrun.in_lastLine (.inr rfl)
      exact (not_mem_lastLine hinner hline).elim

theorem items_closed (hrun : many (itemAt s levels) (ofText cs) = .matched xs mid)
    (hend : mid.Nears s.lineComments []) :
    ∃ stop, terminated (many (itemAt s levels)) (closeBlock s) (ofText (cs ++ ['\n', '}']))
      = .matched xs stop ∧ stop.Nears s.lineComments [] := by
  obtain ⟨mid', l, hrun', ⟨-, rfl⟩, hmid⟩ :=
    items_second (inStep_closed (.inl rfl) cs) hrun hend id fun _ => id
  obtain ⟨t, stop, hclose, hstop, hstopped⟩ := closeBlock_nears hmid
  exact ⟨stop, terminated_matched.mpr ⟨mid', t, hrun', hclose⟩, nears_self hstop hstopped⟩

theorem items_opened {stop : Cursor}
    (hrun : terminated (many (itemAt s levels)) (closeBlock s) (ofText (cs ++ ['\n', '}']))
      = .matched xs stop) (hend : stop.Nears s.lineComments []) :
    ∃ mid, many (itemAt s levels) (ofText cs) = .matched xs mid ∧ mid.Nears s.lineComments [] := by
  obtain ⟨mid, t, hitems, hclose⟩ := terminated_matched.mp hrun
  have hinner : InnerAgrees (.opened : Tails s.lineComments) (itemAt s levels) :=
    ⟨itemAt_agrees levels, itemAt_advances levels, itemOver_refuses next_nil⟩
  have hagree := many_agrees hinner _ _ (inStep_opened cs)
  rw [hitems] at hagree
  generalize hrun' : many (itemAt s levels) (ofText cs) = b at hagree
  cases hagree with
  | ended _ hmid hnil =>
    obtain ⟨place, expected, hmiss⟩ := closeBlock_refuses next_nil mid hmid hnil
    rw [hmiss] at hclose
    cases hclose
  | @matched _ v' _ mid' hK =>
    obtain ⟨rfl, hmid⟩ := hK
    exact ⟨mid', rfl, nears_of_opened hmid hclose hend⟩

/-- What is read up to the end of a text is what is read up to the end of a block behind it. -/
theorem items_closed_iff :
    (∃ stop, terminated (many (itemAt s levels)) (closeBlock s) (ofText (cs ++ ['\n', '}']))
      = .matched xs stop ∧ stop.Nears s.lineComments []) ↔
      ∃ mid, many (itemAt s levels) (ofText cs) = .matched xs mid ∧ mid.Nears s.lineComments [] :=
  ⟨fun ⟨_, hrun, hend⟩ => items_opened hrun hend, fun ⟨_, hrun, hend⟩ => items_closed hrun hend⟩

/-- The limit on the nesting is named in failures only. -/
theorem items_settings {s' : Settings} (h : s'.lineComments = s.lineComments) (hc : c.Within)
    (hrun : many (itemAt s levels) c = .matched xs mid) :
    many (itemAt s' levels) c = .matched xs mid := by
  have hlimits : Limits s Item.nestingAll levels (many (itemAt s levels))
      (many (itemAt s' levels)) :=
    limits_many rfl (fun _ _ => rfl) (itemAt_limits h (Nat.le_refl levels))
  exact hlimits.of_matched hc hrun

/-! ## The rule around the block -/

section

variable {α : Type} {rule : Rule α} {rules : List (Rule α)} {label : Option String} {v : α}
  {rest : Cursor}

/-- A rule that misses does not count among the rules of a choice. -/
theorem choice_skip (hmiss : MissesAt rule c) :
    choice (rule :: rules) label c = .matched v rest ↔ choice rules label c = .matched v rest := by
  refine ⟨fun h => ?_, choice_tail hmiss⟩
  rcases choice_cons_matched h with h | ⟨-, h⟩
  · obtain ⟨place, expected, hmiss⟩ := hmiss
    rw [hmiss] at h
    cases h
  · exact h

/-- The first rule is chosen where the others miss. -/
theorem choice_first (hmiss : ∀ r ∈ rules, MissesAt r c) :
    choice (rule :: rules) label c = .matched v rest ↔ rule c = .matched v rest := by
  refine ⟨fun h => ?_, choice_head⟩
  rcases choice_cons_matched h with h | ⟨-, h⟩
  · exact h
  · obtain ⟨place, expected, hothers⟩ : MissesAt (choice rules label) c := choice_misses hmiss
    rw [hothers] at h
    cases h

end

section

variable {n l : List Char} (hn : IsName n)
include hn

theorem next_name {p : Char → Prop} (hp : ∀ x, isNameChar x = true → p x) :
    Next s.lineComments p (n ++ l) := by
  obtain ⟨x, m, rfl, hblank, hslash, hx⟩ := heads_name hn
  exact ⟨[], x :: (m ++ l), rfl, .nil, noTrivia_cons hblank hslash, head_cons (hp x hx)⟩

/-- A name is read with the place where it stands. -/
theorem name_eq (hc : c.Within) (hahead : c.ahead = n ++ l)
    (hl : ∀ x ∈ l.head?, isNameChar x = false) :
    name c = .matched (c.next n.length) (c.advance n.length) := by
  have hlength : nameLength? (n ++ l) = some n.length := hn.append hl
  rw [name, scan, onward_eq hc.1, hahead, hlength]

theorem simpleSelector_name (hc : c.Within) (hahead : c.ahead = n ++ '{' :: l) :
    simpleSelector s c = .matched ⟨.byType, c.next n.length⟩ (c.advance n.length) := by
  have hskip : trivia s c = .matched () c :=
    trivia_of_noTrivia hc (hahead ▸ (heads_name hn).noTrivia _)
  have hname := name_eq hn hc hahead (head_cons (by decide))
  have hmark : ∀ {x : Char}, isNameChar x = false → ∀ y ∈ (n ++ '{' :: l).head?, y ≠ x := by
    intro x hx y hy
    obtain ⟨z, m, rfl, hz⟩ := hn.cons
    cases hy
    exact ne_of_class hz hx
  rw [simpleSelector, token, hskip]
  refine choice_tail (map_misses (nameAfter_refuses (hmark (by decide)) c hc hahead)) ?_
  refine choice_tail (map_misses (nameAfter_refuses (hmark (by decide)) c hc hahead)) ?_
  exact choice_head (by rw [typeSelector, map, hname]; rfl)

/-- A single name as the selector of a rule. -/
theorem selectorGroup_name (hc : c.Within) (hahead : c.ahead = n ++ '{' :: l) :
    selectorGroup s c = .matched ⟨⟨.byType, c.next n.length⟩, []⟩ (c.advance n.length) := by
  have hrest := (hc.reads hahead).within hc
  obtain ⟨place, expected, hcomma⟩ : MissesAt (symbol s [',']) (c.advance n.length) :=
    symbol_refuses_next ⟨[], '{' :: l, rfl, .nil, noTrivia_cons (by decide) (by decide),
      head_cons (by decide)⟩ _ hrest (hc.ahead_advance hahead)
  rw [selectorGroup, separated1, simpleSelector_name hn hc hahead]
  simp only [Outcome.bind]
  rw [separatedUpTo.eq_def, hcomma]
  rfl

/-- Before a brace a name is the selector of a rule. -/
theorem item_name {inner? : Option (Rule Item)} {x : Item} {rest : Cursor} (hc : c.Within)
    (hahead : c.ahead = n ++ '{' :: l) :
    itemOver s levels inner? c = .matched x rest ↔
      qualifiedRuleOver s inner? c = .matched x rest := by
  have hstep : Next s.lineComments (fun x => x ≠ '#' ∧ x ≠ '.') (n ++ '{' :: l) :=
    next_name hn fun x hx => ⟨ne_of_class hx rfl, ne_of_class hx rfl⟩
  have hat : Next s.lineComments (· ≠ '@') (n ++ '{' :: l) :=
    next_name hn fun x hx => ne_of_class hx rfl
  have hmixin : MissesAt (mixinDeclarationOver s inner?) c :=
    mixinDeclaration_refuses hstep c hc hahead
  have hcall : MissesAt (mixinCall s) c := mixinCall_refuses hstep c hc hahead
  have hvariable : MissesAt (variableDeclarationOver s levels inner?) c :=
    variableDeclaration_refuses hat c hc hahead
  have hvariableCall : MissesAt (variableCall s) c := variableCall_refuses hat c hc hahead
  have hdeclaration : MissesAt (declarationAt s levels) c := by
    have hbrace : Next s.lineComments (fun x => isNameChar x = false ∧ x ≠ ':') ('{' :: l) :=
      ⟨[], '{' :: l, rfl, .nil, noTrivia_cons (by decide) (by decide), head_cons (by decide)⟩
    have hwoven : Woven s.lineComments [n] n ('{' :: l) := by
      have hcons : Woven s.lineComments [n] ([] ++ n ++ []) ('{' :: l) := .cons .nil .nil
      simpa using hcons
    exact declaration_refuses_named hn hbrace n hwoven c hc hahead
  rw [itemOver, choice_skip hmixin, choice_skip hdeclaration, choice_skip hcall]
  refine choice_first fun r hr => ?_
  simp only [List.mem_cons, List.not_mem_nil, or_false] at hr
  rcases hr with rfl | rfl
  · exact hvariable
  · exact hvariableCall

end

/-- What is read behind another text is what is read without it, moved. -/
theorem carries_matched_iff {α : Type} {rule : Rule α} {move : α → α} {w : List Char} {k : Int}
    (hrule : rule.Carries w k move) (hc : c.Within) {u : α} {rest : Cursor} :
    rule (c.behind w k) = .matched u rest ↔
      ∃ v stop, c.Reaches stop ∧ rule c = .matched v stop ∧ u = move v ∧
        rest = stop.behind w k := by
  have h := hrule c hc
  generalize rule c = a at h ⊢
  generalize rule (c.behind w k) = b at h ⊢
  cases h with
  | matched hreach =>
    constructor
    · rintro h
      cases h
      exact ⟨_, _, hreach, rfl, rfl, rfl⟩
    · rintro ⟨v, stop, -, h, rfl, rfl⟩
      cases h
      rfl
  | missed | failed => exact ⟨fun h => (nomatch h), fun ⟨_, _, _, h, _⟩ => (nomatch h)⟩

/-- Behind a block or a call as many of them are open as before it. -/
theorem behind_withDepth {w l : List Char} {stop : Cursor} {k : Int}
    (h : (ofText l).Reaches stop) : (stop.behind w k).withDepth 0 = stop.behind w 0 := by
  refine ext_pos rfl rfl ?_
  show 0 = stop.depth + 0
  rw [h.depth]
  rfl

section

variable {n l : List Char} {mark : Char}

/-- A name at the start of a text, with a mark behind it. -/
theorem name_ofText (hn : IsName n) (hmark : isNameChar mark = false) :
    name (ofText (n ++ [mark] ++ l))
      = .matched ⟨n, some ⟨0, n.length⟩⟩ ((ofText (n ++ [mark] ++ l)).advance n.length) := by
  have hstart := within_ofText (n ++ [mark] ++ l)
  have hahead : (ofText (n ++ [mark] ++ l)).ahead = n ++ mark :: l := by simp
  have hnext : (ofText (n ++ [mark] ++ l)).next n.length = ⟨n, some ⟨0, n.length⟩⟩ := by
    rw [next_eq hstart, hahead, List.take_left]
    exact congrArg (fun stop => Text.mk n (some ⟨0, stop⟩)) (Int.zero_add _)
  rw [name_eq hn hstart hahead (head_cons hmark), hnext]

/-- Behind the mark the text is read as by itself, further on. -/
theorem ofText_opened :
    ((ofText (n ++ [mark] ++ l)).advance n.length).advance 1
      = (ofText l).behind (n ++ [mark]) 0 := by
  rw [advance_advance, ← ofText_append, List.length_append, List.length_singleton]

end

section

variable {w l : List Char} {inner : Rule Item}
  (hinner : inner.Carries w 1 (Item.shift w.length))
include hinner

/-- The items in a block are those of the text in it, further on. -/
theorem block_iff {rest : Cursor} (hc : c.Within) (hahead : c.ahead = '{' :: l)
    (hdepth : c.depth = 0) (hinside : c.advance 1 = (ofText l).behind w 0) :
    blockOver s (some inner) c = .matched ys rest ↔
      ∃ xs stop, (ofText l).Reaches stop ∧
        terminated (many inner) (closeBlock s) (ofText l) = .matched xs stop ∧
        ys = Item.shiftAll w.length xs ∧ rest = stop.behind w 0 := by
  have hbody : (terminated (many inner) (closeBlock s)).Carries w 1 (Item.shiftAll w.length) :=
    carries_terminated (many_carries hinner) closeBlock_carries
  have hnested : (c.advance 1).nested = (ofText l).behind w 1 := by
    rw [hinside]
    exact ext_pos rfl rfl rfl
  have hskip : trivia s c = .matched () c :=
    trivia_of_noTrivia hc (hahead ▸ noTrivia_cons (by decide) (by decide))
  have hopen : symbol s ['{'] c = .matched (c.next 1) (c.advance 1) := symbol_one hskip hahead
  unfold blockOver
  rw [hopen]
  dsimp only [Outcome.bind]
  rw [hnested]
  constructor
  · intro h
    obtain ⟨items, stop', hcut, hrest⟩ := Outcome.bind_matched.mp h
    obtain ⟨xs, stop, hreach, hread, rfl, rfl⟩ :=
      (carries_matched_iff hbody (within_ofText l)).mp (cut_matched.mp hcut)
    cases hrest
    exact ⟨xs, stop, hreach, hread, rfl, by rw [hdepth, behind_withDepth hreach]⟩
  · rintro ⟨xs, stop, hreach, hread, rfl, rfl⟩
    refine Outcome.bind_matched.mpr
      ⟨Item.shiftAll w.length xs, stop.behind w 1, cut_matched.mpr ?_, ?_⟩
    · exact (carries_matched_iff hbody (within_ofText l)).mpr ⟨xs, stop, hreach, hread, rfl, rfl⟩
    · rw [hdepth, behind_withDepth hreach]

end

/-- A rule with a single name before its block. -/
theorem rule_name_iff {n l : List Char} (hn : IsName n) {group : SelectorGroup}
    {inner : Rule Item} {rest : Cursor}
    (hinner : inner.Carries (n ++ ['{']) 1 (Item.shift (n ++ ['{']).length)) :
    qualifiedRuleOver s (some inner) (ofText (n ++ ['{'] ++ l)) = .matched (.rule group ys) rest ↔
      group = ⟨⟨.byType, ⟨n, some ⟨0, n.length⟩⟩⟩, []⟩ ∧
        ∃ xs stop, (ofText l).Reaches stop ∧
          terminated (many inner) (closeBlock s) (ofText l) = .matched xs stop ∧
          ys = Item.shiftAll (n ++ ['{']).length xs ∧ rest = stop.behind (n ++ ['{']) 0 := by
  have hstart := within_ofText (n ++ ['{'] ++ l)
  have hahead : (ofText (n ++ ['{'] ++ l)).ahead = n ++ '{' :: l := by simp
  have hgroup := selectorGroup_name (s := s) hn hstart hahead
  have hname : name (ofText (n ++ ['{'] ++ l)) = _ := name_ofText hn (by decide)
  rw [name_eq hn hstart hahead (head_cons (by decide))] at hname
  rw [(Outcome.matched.inj hname).1] at hgroup
  have hblock : blockOver s (some inner) ((ofText (n ++ ['{'] ++ l)).advance n.length)
        = .matched ys rest ↔ _ :=
    block_iff hinner ((hstart.reads hahead).within hstart) (hstart.ahead_advance hahead)
      (depth_advance _ _) ofText_opened
  unfold qualifiedRuleOver
  rw [map_matched]
  constructor
  · rintro ⟨⟨found, items⟩, hboth, hrule⟩
    obtain ⟨mid, hfound, hitems⟩ := both_matched.mp hboth
    cases hrule
    cases hgroup.symm.trans hfound
    exact ⟨rfl, hblock.mp hitems⟩
  · rintro ⟨rfl, h⟩
    exact ⟨(_, ys), both_matched.mpr ⟨_, hgroup, hblock.mpr h⟩, rfl⟩

/-! ## Both stylesheets -/

theorem many_nil {α : Type} {rule : Rule α} {rest : Cursor} (h : many rule c = .matched [] rest) :
    rest = c := by
  rcases manyUpTo_matched h with ⟨-, rfl⟩ | ⟨_, _, _, _, -, -, -, hcons⟩
  · rfl
  · cases hcons

/-- A stylesheet of one item. -/
theorem parseStylesheet_one_iff {x : Item} {url : Option String} :
    parseStylesheet s ⟨cs, url⟩ = .ok ⟨[x]⟩ ↔
      ∃ rest, itemAt s s.maxDepth (ofText cs) = .matched x rest ∧ rest.Nears s.lineComments [] := by
  have hadvances : (itemAt s s.maxDepth).Advances := itemAt_advances s.maxDepth
  have hstart := within_ofText cs
  rw [parseStylesheet_ok_iff]
  constructor
  · rintro ⟨mid, hmany, hend⟩
    cases hfirst : itemAt s s.maxDepth (ofText cs) with
    | missed place expected =>
      rw [many_of_misses ⟨_, _, hfirst⟩] at hmany
      cases hmany
    | failed place expected blamed =>
      rw [many_of_failed hfirst] at hmany
      cases hmany
    | matched y rest =>
      rw [hadvances.many_of_matched hstart hfirst] at hmany
      obtain ⟨us, hothers, hcons⟩ := Outcome.map_matched.mp hmany
      cases hcons
      rw [many_nil hothers] at hend
      exact ⟨rest, rfl, hend⟩
  · rintro ⟨rest, hitem, hend⟩
    obtain ⟨hrest, w, hahead, hrun⟩ := hend
    have hnext : ∀ {p : Char → Prop}, Next s.lineComments p rest.ahead := by
      rw [hahead, List.append_nil]
      exact next_of_run hrun
    have hmiss : MissesAt (itemAt s s.maxDepth) rest := itemOver_refuses hnext rest hrest rfl
    refine ⟨rest, ?_, hrest, w, hahead, hrun⟩
    rw [hadvances.many_of_matched hstart hitem, many_of_misses hmiss]
    rfl

theorem nears_behind {w l : List Char} {k : Int} {lineComments : Bool} (hc : c.Within) :
    (c.behind w k).Nears lineComments l ↔ c.Nears lineComments l := by
  unfold Nears
  rw [ahead_behind hc.1]
  exact and_congr_left fun _ => ⟨fun _ => hc, fun _ => hc.behind⟩

/-- A rule with a single name before its block, as the only item of a stylesheet. -/
theorem enclosed_iff {n : List Char} (hn : IsName n) {url : Option String} {d : Nat}
    (hdepth : s.maxDepth = d + 1) :
    parseStylesheet s ⟨n ++ ['{'] ++ cs, url⟩
        = .ok ⟨[.rule ⟨⟨.byType, ⟨n, some ⟨0, n.length⟩⟩⟩, []⟩
            (Item.shiftAll (n ++ ['{']).length xs)]⟩ ↔
      ∃ stop, terminated (many (itemAt s d)) (closeBlock s) (ofText cs) = .matched xs stop ∧
        stop.Nears s.lineComments [] := by
  have hstart := within_ofText (n ++ ['{'] ++ cs)
  have hahead : (ofText (n ++ ['{'] ++ cs)).ahead = n ++ '{' :: cs := by simp
  have hinner : innerItem? s (d + 1) = some (itemAt s d) := rfl
  rw [parseStylesheet_one_iff, hdepth, itemAt, hinner]
  simp only [item_name hn hstart hahead, rule_name_iff hn (itemAt_carries d)]
  constructor
  · rintro ⟨rest, ⟨-, us, stop, hreach, hread, hshift, rfl⟩, hend⟩
    obtain rfl := Item.shiftAll_inj.mp hshift
    exact ⟨stop, hread, (nears_behind (hreach.within (within_ofText cs))).mp hend⟩
  · rintro ⟨stop, hread, hend⟩
    have hbody : (terminated (many (itemAt s d)) (closeBlock s)).Proceeds :=
      ensures_terminated (many_ensures (itemAt_advances d)) closeBlock_ensures
        fun _ _ _ _ _ _ _ _ _ => trivial
    have hreach := (hbody _ xs stop (within_ofText cs) hread).1
    exact ⟨_, ⟨trivial, xs, stop, hreach, hread, rfl, rfl⟩,
      (nears_behind (hreach.within (within_ofText cs))).mpr hend⟩

/-- The text of a stylesheet in the block of a rule: the items are the same, one level deeper and
further on. -/
theorem parseStylesheet_enclosed_iff {n : List Char} (hn : IsName n) (cs : List Char)
    (lineComments : Bool) (d : Nat) (url url' : Option String) (xs : List Item) :
    parseStylesheet ⟨d, lineComments⟩ ⟨cs, url⟩ = .ok ⟨xs⟩ ↔
      parseStylesheet ⟨d + 1, lineComments⟩ ⟨n ++ '{' :: cs ++ ['\n', '}'], url'⟩
        = .ok ⟨[.rule ⟨⟨.byType, ⟨n, some ⟨0, n.length⟩⟩⟩, []⟩
            (Item.shiftAll (n.length + 1) xs)]⟩ := by
  have htext : n ++ '{' :: cs ++ ['\n', '}'] = n ++ ['{'] ++ (cs ++ ['\n', '}']) := by simp
  have hlength : (n.length + 1 : Int) = (n ++ ['{']).length := by simp
  rw [htext, hlength, enclosed_iff hn rfl, items_closed_iff, parseStylesheet_ok_iff]
  constructor
  · rintro ⟨mid, hread, hend⟩
    exact ⟨mid, items_settings (s := ⟨d, lineComments⟩) rfl (within_ofText cs) hread, hend⟩
  · rintro ⟨mid, hread, hend⟩
    exact ⟨mid, items_settings (s := ⟨d + 1, lineComments⟩) rfl (within_ofText cs) hread, hend⟩

/-- A declaration without a semicolon, and a comment up to the end of the text. -/
theorem declaration_enclosed :
    ∃ xs, parseStylesheet ⟨1, true⟩ ⟨['a', ':', 'b', '/', '/'], none⟩ = .ok ⟨xs⟩ ∧
      parseStylesheet ⟨2, true⟩ ⟨['n'] ++ '{' :: ['a', ':', 'b', '/', '/'] ++ ['\n', '}'], none⟩
        = .ok ⟨[.rule ⟨⟨.byType, ⟨['n'], some ⟨0, 1⟩⟩⟩, []⟩ (Item.shiftAll 2 xs)]⟩ := by
  have hn : IsName ['n'] := rfl
  obtain ⟨⟨xs⟩, hxs⟩ : ∃ sheet,
      parseStylesheet ⟨1, true⟩ ⟨['a', ':', 'b', '/', '/'], none⟩ = .ok sheet := ⟨_, rfl⟩
  exact ⟨xs, hxs, (parseStylesheet_enclosed_iff hn _ true 1 none none xs).mp hxs⟩

end LessSyntax
