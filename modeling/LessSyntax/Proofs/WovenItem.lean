import LessSyntax.Proofs.RoundTrip
import LessSyntax.Proofs.WovenSelector

/-!
# Items in their surroundings

What an item that can be printed begins with, what stands behind its parts, and where the rules for
items miss: at once, where no item of their kind begins, or behind a name, where another kind of
item goes on. Blocks of items are read one level down.

* `Item.Printable`: the items that are read again.
* `itemOver_refuses`: no item begins behind the last one.
* `accepts_woven_block`: a block is read, if the items in it are.
-/

namespace LessSyntax

open Grammar Rule

/-! ## Items that can be printed -/

/-- The value is one that a source is read as. -/
def Value.Parsed (s : Settings) (value : Value) : Prop :=
  ∃ source, parseValue s source = .ok value

mutual

/-- The names of the item are names and its values are read from sources; a block stands as the
whole value of a variable only. -/
def Item.Printable (s : Settings) : Item → Prop
  | .declaration name value _ => IsName name.chars ∧ value.Parsed s
  | .rule selectors block =>
    (∀ selector ∈ selectors.toList, selector.Printable) ∧ Item.AllPrintable s block
  | .mixin path block =>
    path.others = [] ∧ path.first.NamesMixin ∧ Item.AllPrintable s block
  | .mixinCall path => ∀ step ∈ path.toList, step.NamesMixin
  | .variable name value => IsName name.chars ∧ Value.EndPrintable s value
  | .variableCall name => IsName name.chars

/-- The value of a variable is a block of such items, or it is read from a source. -/
def Value.EndPrintable (s : Settings) : Value → Prop
  | .ruleset block => Item.AllPrintable s block
  | value => value.Parsed s

def Item.AllPrintable (s : Settings) : List Item → Prop
  | [] => True
  | x :: xs => Item.Printable s x ∧ Item.AllPrintable s xs

end

variable {s : Settings}

theorem Item.allPrintable_iff {xs : List Item} :
    Item.AllPrintable s xs ↔ ∀ x ∈ xs, x.Printable s := by
  induction xs with
  | nil => simp [Item.AllPrintable]
  | cons x xs ih => simp [Item.AllPrintable, ih]

theorem Value.Parsed.written {value : Value} (h : value.Parsed s) : value.Written 3 := by
  obtain ⟨source, h⟩ := h
  exact parseValue_written h

namespace Grammar

/-! ## What an item begins with -/

/-- The marks that items begin with, names apart. -/
def itemMarks : List Char := ['#', '.', '*', '@']

theorem selectorMarks_subset : selectorMarks ⊆ itemMarks := by decide

def ItemHead (x : Char) : Prop := isNameChar x = true ∨ x ∈ itemMarks

theorem item_heads {x : Item} (h : x.Printable s) :
    ∃ token tokens, x.tokens = token :: tokens ∧ Heads ItemHead token := by
  have hname : ∀ {t : Text}, IsName t.chars → Heads ItemHead t.chars :=
    fun h => (heads_name h).mono fun _ => Or.inl
  have hselector : ∀ {selector : Selector}, selector.Printable → Heads ItemHead selector.print := by
    intro selector h
    refine (selector_heads h).mono fun x hx => ?_
    obtain ⟨kind, t⟩ := selector
    cases kind with
    | byType => exact Or.inl hx
    | byId | byClass | universal =>
      obtain rfl := hx
      exact Or.inr (by decide)
  have hvariable : ∀ {t : Text}, Heads ItemHead ('@' :: t.chars) :=
    fun {t} => ⟨'@', t.chars, rfl, rfl, by decide, Or.inr (by decide)⟩
  have hselectors : ∀ {mark : List Char} {selectors : OneOrMore Selector} {t : List (List Char)},
      selectors.first.Printable → ∃ token tokens,
        (selectors.toList.map Selector.print).intersperse mark ++ t = token :: tokens ∧
          Heads ItemHead token := by
    intro mark selectors t h
    rw [selectorTokens_eq, List.append_assoc]
    exact ⟨_, _, rfl, hselector h⟩
  match x, h with
  | .declaration _ _ _, h => exact ⟨_, _, rfl, hname h.1⟩
  | .rule selectors _, h => exact hselectors (h.1 selectors.first List.mem_cons_self)
  | .mixin _ _, h => exact hselectors h.2.1.printable
  | .mixinCall path, h => exact hselectors (h path.first List.mem_cons_self).printable
  | .variable _ _, _ => exact ⟨_, _, rfl, hvariable⟩
  | .variableCall _, _ => exact ⟨_, _, rfl, hvariable⟩

theorem itemHead_ne {x y : Char} (hx : ItemHead x) (hy : isNameChar y = false)
    (hmark : y ∉ itemMarks) : x ≠ y := by
  rintro rfl
  rcases hx with hname | hmem
  · rw [hy] at hname
    cases hname
  · exact hmark hmem

/-! ## Blocks -/

variable {inner? : Option (Rule Item)} {rule inner : Rule Item} {levels : Nat} {k : List Char}
  {xs : List Item}

/-- The rule reads the items that are nested within the levels from their tokens, wherever no
semicolon stands behind them. -/
def TakesItems (s : Settings) (rule : Rule Item) (levels : Nat) : Prop :=
  ∀ (x : Item) (k : List Char), x.Printable s → x.nesting ≤ levels → (symbol s [';']).Refuses k →
    rule.AcceptsWoven s.lineComments x.tokens k fun y => x.same y = true

theorem accepts_woven_items (htakes : TakesItems s rule levels)
    (hprintable : Item.AllPrintable s xs) (hnest : Item.nestingAll xs ≤ levels)
    (hsemicolon : (symbol s [';']).Refuses k) (hstop : rule.Refuses k) :
    (many rule).AcceptsWoven s.lineComments (Item.tokensAll xs) k
      fun ys => Item.sameAll xs ys = true := by
  intro text h
  rw [Item.tokensAll_eq] at h
  have hall := Item.allPrintable_iff.mp hprintable
  have hbefore : ∀ x ∈ xs, ∀ a l, Woven s.lineComments x.tokens a l →
      (symbol s [';']).Refuses (a ++ l) := by
    intro x hx a l hwoven
    obtain ⟨token, tokens, htokens, hheads⟩ := item_heads (hall x hx)
    rw [htokens] at hwoven
    refine symbol_refuses_next ((woven_next hwoven hheads).mono fun y hy => ?_)
    exact itemHead_ne hy rfl (by decide)
  obtain ⟨hspells, -⟩ := spells_of_woven hbefore hsemicolon h
  have hrepeats : Spells (Repeats rule fun x y => x.same y = true) xs text k := by
    refine hspells.mono fun x a l ⟨hx, hwoven, hl⟩ => ⟨?_, ?_⟩
    · obtain ⟨token, tokens, htokens, hheads⟩ := item_heads (hall x hx)
      rw [htokens] at hwoven
      exact woven_ne_nil hwoven hheads.ne_nil
    · exact htakes x l (hall x hx) (Item.nestingAll_le.mp hnest x hx) hl a hwoven
  refine accepts_many (S := fun xs ys => Item.sameAll xs ys = true) (by rw [Item.sameAll]) ?_
    hrepeats hstop
  intro x y xs ys hsame hmore
  rw [Item.sameAll, hsame, hmore]
  rfl

/-- A block is read where its brace and what stands inside are. -/
theorem accepts_blockOver {a b : List Char} {P : List Item → Prop}
    (hopen : (symbol s ['{']).Accepts a (b ++ k) fun _ => True)
    (hinside : (cut (terminated (many inner) (closeBlock s)) "block").Accepts b k P) :
    (blockOver s (some inner)).Accepts (a ++ b) k P := by
  intro c hc hahead
  rw [List.append_assoc] at hahead
  obtain ⟨t, hopen, -⟩ := hopen c hc hahead
  have hopened := (hc.reads hahead).within hc
  obtain ⟨ys, hys, hP⟩ := hinside _ hopened.nested (hc.ahead_advance hahead)
  refine ⟨ys, ?_, hP⟩
  unfold blockOver
  rw [hopen]
  dsimp only [Outcome.bind]
  rw [hys]
  dsimp only
  rw [← Cursor.depth_advance c a.length, Cursor.nested_advance_withDepth, Cursor.advance_advance,
    List.length_append]

theorem accepts_woven_block (htakes : TakesItems s inner levels)
    (hrefuses : ∀ k, Next s.lineComments (· = '}') k → inner.Refuses k)
    (hprintable : Item.AllPrintable s xs) (hnest : Item.nestingAll xs ≤ levels) :
    (blockOver s (some inner)).AcceptsWoven s.lineComments (inBraces (Item.tokensAll xs)) k
      fun ys => Item.sameAll xs ys = true := by
  intro text h
  obtain ⟨a, b, rfl, ha, hb⟩ := woven_append (t := [['{']]) h
  have hclose : (closeBlock s).AcceptsWoven s.lineComments [['}']] k fun _ => True :=
    fun d hd => accepts_choice_head (accepts_woven_symbol (by decide) d hd)
  have hinside : (cut (terminated (many inner) (closeBlock s)) "block").Accepts b k
      fun ys => Item.sameAll xs ys = true := by
    refine accepts_cut (accepts_woven_terminated (fun d hd => ?_) hclose b hb)
    have hsemicolon : Next s.lineComments (· ≠ ';') (d ++ k) :=
      woven_next_mark hd (by decide) (by decide)
    exact accepts_woven_items htakes hprintable hnest (symbol_refuses_next hsemicolon)
      (hrefuses _ (woven_next_mark hd (by decide) rfl))
  exact accepts_blockOver (accepts_woven_symbol (by decide) a ha) hinside

/-- The rule for the items of blocks reads them one level down, and misses at a closing brace. -/
def TakesInner (s : Settings) (inner? : Option (Rule Item)) (levels : Nat) : Prop :=
  ∀ below, levels = below + 1 → ∃ inner, inner? = some inner ∧ TakesItems s inner below ∧
    ∀ k, Next s.lineComments (· = '}') k → inner.Refuses k

theorem accepts_woven_innerBlock (hinner : TakesInner s inner? levels)
    (hprintable : Item.AllPrintable s xs) (hnest : Item.nestingAll xs + 1 ≤ levels) :
    (blockOver s inner?).AcceptsWoven s.lineComments (inBraces (Item.tokensAll xs)) k
      fun ys => Item.sameAll xs ys = true := by
  obtain ⟨inner, rfl, htakes, hrefuses⟩ := hinner (levels - 1) (by omega)
  exact accepts_woven_block htakes hrefuses hprintable (by omega)

/-! ## Rules that miss at once -/

theorem emptyParens_refuses (hk : Next s.lineComments (· ≠ '(') k) : (emptyParens s).Refuses k :=
  both_refuses_first (symbol_refuses_next hk)

theorem blockOver_refuses (hk : Next s.lineComments (· ≠ '{') k) :
    (blockOver s inner?).Refuses k := by
  intro c hc hahead
  obtain ⟨place, expected, hmiss⟩ := symbol_refuses_next hk c hc hahead
  refine ⟨place, expected, ?_⟩
  unfold blockOver
  rw [hmiss]
  rfl

theorem mixinDeclaration_refuses (hk : Next s.lineComments (fun x => x ≠ '#' ∧ x ≠ '.') k) :
    (mixinDeclarationOver s inner?).Refuses k :=
  map_refuses (both_refuses_first (terminated_refuses_first
    (token_refuses_next (fun _ hl => map_refuses (mixinStep_refuses hl)) hk)))

theorem declaration_refuses (hk : Next s.lineComments (isNameChar · = false) k) :
    (declarationAt s levels).Refuses k :=
  bind_refuses (terminated_refuses_first (token_refuses_next (fun _ => name_refuses) hk))

theorem mixinCall_refuses (hk : Next s.lineComments (fun x => x ≠ '#' ∧ x ≠ '.') k) :
    (mixinCall s).Refuses k :=
  map_refuses (terminated_refuses_first (terminated_refuses_first
    (map_refuses (both_refuses_first (token_refuses_next (fun _ => mixinStep_refuses) hk)))))

theorem simpleSelector_refuses
    (hk : Next s.lineComments (fun x => x ∉ selectorMarks ∧ isNameChar x = false) k) :
    (simpleSelector s).Refuses k := by
  refine token_refuses_next (fun l hl => ?_) hk
  have hmark : ∀ {mark : Char}, mark ∈ selectorMarks → ∀ x ∈ l.head?, x ≠ mark := by
    rintro mark hmem x hx rfl
    exact (hl x hx).1 hmem
  refine choice_refuses fun r hr => ?_
  simp only [List.mem_cons, List.not_mem_nil, or_false] at hr
  rcases hr with rfl | rfl | rfl | rfl
  · exact map_refuses (nameAfter_refuses (hmark (by decide)))
  · exact map_refuses (nameAfter_refuses (hmark (by decide)))
  · exact map_refuses (name_refuses fun x hx => (hl x hx).2)
  · refine map_refuses (literal_refuses (by simp) ?_)
    rintro ⟨m, rfl⟩
    exact hmark (by decide) '*' rfl rfl

theorem qualifiedRule_refuses
    (hk : Next s.lineComments (fun x => x ∉ selectorMarks ∧ isNameChar x = false) k) :
    (qualifiedRuleOver s inner?).Refuses k :=
  map_refuses (both_refuses_first (bind_refuses (simpleSelector_refuses hk)))

theorem variableDeclaration_refuses (hk : Next s.lineComments (· ≠ '@') k) :
    (variableDeclarationOver s levels inner?).Refuses k :=
  bind_refuses (terminated_refuses_first (token_refuses_next (fun _ => atName_refuses) hk))

theorem variableCall_refuses (hk : Next s.lineComments (· ≠ '@') k) : (variableCall s).Refuses k :=
  map_refuses (terminated_refuses_first (terminated_refuses_first
    (token_refuses_next (fun _ => atName_refuses) hk)))

/-- No item begins where something else stands ahead than what items begin with. -/
theorem itemOver_refuses (hk : Next s.lineComments (¬ ItemHead ·) k) :
    (itemOver s levels inner?).Refuses k := by
  have hname : Next s.lineComments (isNameChar · = false) k :=
    hk.mono fun x hx => Bool.eq_false_iff.mpr fun h => hx (Or.inl h)
  have hmark : ∀ {mark : Char}, mark ∈ itemMarks → ∀ x, ¬ ItemHead x → x ≠ mark := by
    rintro mark hmem x hx rfl
    exact hx (Or.inr hmem)
  have hstep : Next s.lineComments (fun x => x ≠ '#' ∧ x ≠ '.') k :=
    hk.mono fun x hx => ⟨hmark (by decide) x hx, hmark (by decide) x hx⟩
  refine choice_refuses fun r hr => ?_
  simp only [List.mem_cons, List.not_mem_nil, or_false] at hr
  rcases hr with rfl | rfl | rfl | rfl | rfl | rfl
  · exact mixinDeclaration_refuses hstep
  · exact declaration_refuses hname
  · exact mixinCall_refuses hstep
  · refine qualifiedRule_refuses (hk.mono fun x hx => ⟨fun hmem => ?_, ?_⟩)
    · exact hx (Or.inr (selectorMarks_subset hmem))
    · exact Bool.eq_false_iff.mpr fun h => hx (Or.inl h)
  · exact variableDeclaration_refuses (hk.mono (hmark (by decide)))
  · exact variableCall_refuses (hk.mono (hmark (by decide)))

/-! ## Rules that miss behind a name -/

theorem accepts_mixinName {step : Selector} (h : step.NamesMixin)
    (hk : Next s.lineComments (· ∈ selectorEnds) k) :
    (token s mixinName).AcceptsWoven s.lineComments [step.print] k
      fun found => OneOrMore.sameSelectors ⟨step, []⟩ found = true :=
  accepts_woven_token (selector_heads h.printable) (accepts_map
    (accepts_mono (accepts_mixinStep h hk.name_stops) fun _ hsame =>
      Selector.sameAll_cons hsame rfl))

/-- The name of a mixin is read, and something else than parentheses behind it. -/
theorem mixinDeclaration_refuses_named {step : Selector} (h : step.NamesMixin)
    (hk : Next s.lineComments (fun x => x ∈ selectorEnds ∧ x ≠ '(') k) :
    (mixinDeclarationOver s inner?).RefusesWoven s.lineComments [step.print] k := by
  intro text hwoven
  have hname := accepts_mixinName h (hk.mono fun _ hx => hx.1) text hwoven
  have hparens := emptyParens_refuses (hk.mono fun _ hx => hx.2)
  exact map_refuses (both_refuses_first (map_refuses (both_refuses hname hparens)))

theorem mixinCall_refuses_named {step : Selector} (h : step.NamesMixin)
    (hk : Next s.lineComments (fun x => x ∈ groupEnds ∧ x ≠ '(') k) :
    (mixinCall s).RefusesWoven s.lineComments [step.print] k := by
  intro text hwoven
  have hall : ∀ other ∈ OneOrMore.toList ⟨step, []⟩, other.NamesMixin := by
    simpa [OneOrMore.toList] using h
  have hpath := accepts_mixinPath hall (hk.mono fun _ hx => hx.1) text hwoven
  have hparens := emptyParens_refuses (hk.mono fun _ hx => hx.2)
  exact map_refuses (terminated_refuses_first (map_refuses (both_refuses hpath hparens)))

/-- A name is read, and no colon behind it. -/
theorem declaration_refuses_named {cs : List Char} (h : IsName cs)
    (hk : Next s.lineComments (fun x => isNameChar x = false ∧ x ≠ ':') k) :
    (declarationAt s levels).RefusesWoven s.lineComments [cs] k := by
  intro text hwoven
  have hstop := Next.stops isNameChar_boundary (hk.mono fun _ hx => hx.1)
  have hname := accepts_woven_token (s := s) (heads_name h) (accepts_name h hstop) text hwoven
  have hcolon := symbol_refuses_next (hk.mono fun _ hx => hx.2)
  exact bind_refuses (map_refuses (both_refuses hname hcolon))

/-! ## What ends an item -/

theorem accepts_terminator :
    (terminator s).AcceptsWoven s.lineComments [[';']] k fun _ => True :=
  fun text h => accepts_choice_head (accepts_map (accepts_woven_symbol (by decide) text h))

theorem accepts_emptyParens :
    (emptyParens s).AcceptsWoven s.lineComments [['('], [')']] k fun _ => True := by
  intro text h
  have hmark : ∀ {x : Char} {l : List Char}, x ∈ tokenMarks →
      (symbol s [x]).AcceptsWoven s.lineComments [[x]] l fun _ => True := accepts_woven_symbol
  exact accepts_mono (accepts_woven_both (t := [['(']]) (fun b _ => hmark (by decide))
    (hmark (by decide)) text h) fun _ _ => trivial

theorem accepts_woven_value {value : Value} (hwritten : value.Written 3)
    (hnest : value.nesting ≤ levels) (hk : Next s.lineComments (· ∈ valueEnds) k) :
    (valueAt s levels).AcceptsWoven s.lineComments [value.print] k
      fun found => value.same found = true := by
  intro text h
  obtain ⟨w, l, hsplit, hrun', -, hl⟩ := hk
  cases h with
  | cons hrun hothers =>
    cases hothers
    rw [List.append_nil]
    exact valueAt_takes levels value _ k hwritten hnest hrun ⟨w, l, hsplit, hrun', hl⟩

theorem accepts_important_absent (hk : Next s.lineComments (· ≠ '!') k) :
    (important s).AcceptsWoven s.lineComments [] k (· = false) := by
  intro text h
  cases h
  have hmark : (opt (symbol s ['!'])).Accepts [] ([] ++ k) (· = none) :=
    accepts_opt_none (symbol_refuses_next hk)
  apply accepts_bind hmark
  rintro _ rfl c _ _
  exact ⟨false, by rw [List.length_nil, Cursor.advance_zero], rfl⟩

theorem accepts_important_present (hk : Next s.lineComments (isNameChar · = false) k) :
    (important s).AcceptsWoven s.lineComments [['!'], importantWord] k (· = true) := by
  intro text h
  obtain ⟨a, b, rfl, ha, hb⟩ := woven_append (t := [['!']]) h
  have hmark : (opt (symbol s ['!'])).Accepts a (b ++ k) fun mark => ∃ t, mark = some t :=
    accepts_opt (accepts_mono (accepts_woven_symbol (by decide) a ha)
      fun t _ => ⟨t, rfl⟩)
  apply accepts_bind hmark
  rintro _ ⟨t, rfl⟩
  have his : IsName importantWord := rfl
  cases hb with
  | cons hrun hothers =>
    cases hothers
    rw [List.append_nil]
    refine accepts_bind (accepts_trivia hrun ((heads_name his).noTrivia k)) fun _ _ => ?_
    intro c hc hahead
    obtain ⟨word, hword, hchars⟩ :=
      accepts_name his (Next.stops isNameChar_boundary hk) c hc hahead
    refine ⟨true, ?_, rfl⟩
    dsimp only
    rw [hword]
    dsimp only
    rw [hchars]
    rfl

end Grammar

end LessSyntax
