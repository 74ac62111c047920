import LessSyntax.Proofs.EndViability

/-!
# Items that can be completed

The rules for items are compared with those that may open one block or one call more. Where the text
has been read up to a block that is one too many, an empty block stands there instead. A block whose
last item is left open is closed behind a semicolon.

* `declarationAt_viable`, `mixinCall_viable`, `variableCall_viable`: items without a block.
* `blockOver_viable`: blocks, if the items in them are compared.
* `variableTail_viable`: the values of variables, which are blocks or not.
* `itemAt_viable`, `items_viable`: items with the given number of levels left.
-/

namespace LessSyntax.Grammar

open Rule

variable {α β : Type} {s : Settings} {deeper : Prop} {rule : Rule α} {rule' : Rule β}
  {w k l : List Char}

/-! ## Items without a block -/

theorem declarationAt_eq (levels : Nat) : declarationAt s levels =
    map (fun found => Item.declaration found.1 found.2.1 found.2.2)
      (both (terminated (token s name) (symbol s [':']))
        (cut (both (valueAt s levels) (terminated (important s) (terminator s))) "declaration")) :=
  funext fun _ => bind_map_eq

/-- What is declared, and a colon. -/
theorem viable_declared {p : Char → Prop}
    (h : ViableIf deeper (Replaces false) (Ahead s.lineComments false p) rule rule') :
    ViableIf deeper Anything (Ahead s.lineComments false p) (terminated rule (symbol s [':']))
      (terminated rule' (symbol s [':'])) := by
  have hcolon : ViableIf deeper Anything (Ahead s.lineComments false (· = ':')) (symbol s [':'])
      (symbol s [':']) := symbol_viable (by decide)
  exact viable_terminated h (hcolon.mono (fun _ _ => id) fun _ _ => And.left)

theorem declarationAt_viableIf {levels levels' : Nat} (hle : levels ≤ levels')
    (hdeeper : deeper → levels < levels') :
    ViableItemIf deeper s.lineComments Anything (Ahead s.lineComments false (isNameChar · = true))
      (declarationAt s levels) (declarationAt s levels') := by
  have hends : ViableItemIf deeper s.lineComments Anything
      (Ahead s.lineComments true (· ∈ valueEnds)) (terminated (important s) (terminator s))
      (terminated (important s) (terminator s)) :=
    viableItem_terminated important_viable terminator_viable
  rw [declarationAt_eq, declarationAt_eq]
  exact viableItem_map (viableItem_both (viable_declared (token_viable name_lexeme))
    ((viableItem_cut (viableItem_both (valueAt_viableIf hle hdeeper) hends)).mono (fun _ _ => id)
      fun _ _ _ => trivial))

theorem declarationAt_viable (levels : Nat) :
    ViableItem s.lineComments Anything (Ahead s.lineComments false (isNameChar · = true))
      (declarationAt s levels) (declarationAt s (levels + 1)) :=
  declarationAt_viableIf (Nat.le_succ levels) fun _ => Nat.lt_succ_self levels

/-- What is called, and what ends the call. -/
theorem viableItem_call {context : String} {p : Char → Prop}
    (h : ViableIf deeper (Ahead s.lineComments false (· = '(')) (Ahead s.lineComments false p) rule
      rule') :
    ViableItemIf deeper s.lineComments Anything (Ahead s.lineComments false p)
      (terminated (terminated rule (emptyParens s)) (cut (terminator s) context))
      (terminated (terminated rule' (emptyParens s)) (cut (terminator s) context)) :=
  viableItem_terminated (viable_terminated h emptyParens_viable)
    ((viableItem_cut terminator_viable).mono (fun _ _ => id) fun _ _ _ => trivial)

theorem mixinCall_viable : ViableItemIf deeper s.lineComments Anything
    (Ahead s.lineComments false fun x => x = '#' ∨ x = '.') (mixinCall s) (mixinCall s) :=
  viableItem_map (viableItem_call mixinPath_viable)

theorem variableCall_viable : ViableItemIf deeper s.lineComments Anything
    (Ahead s.lineComments false (· = '@')) (variableCall s) (variableCall s) :=
  viableItem_map (viableItem_call
    ((token_viable atName_lexeme).mono (fun _ _ h => h.1) fun _ _ => id))

/-! ## Blocks -/

variable {inner? inner?' : Option (Rule Item)} {inner inner' : Rule Item}

/-- No semicolon stands behind an item: one that is left open would be closed by it. -/
def NoSemicolon (lineComments : Bool) (_ b : List Char) : Prop := Next lineComments (· ≠ ';') b

/-- No item begins there either. -/
def NoItem (lineComments : Bool) (_ b : List Char) : Prop :=
  Next lineComments (fun x => ¬ ItemHead x ∧ x ≠ ';') b

/-- How the rules for inner items are compared. The second one is there if it goes deeper, and where
the first one is. -/
structure DeeperItems (deeper : Prop) (s : Settings) (inner? inner?' : Option (Rule Item)) :
    Prop where
  allowed : deeper ∨ inner?.isSome = true → ∃ inner', inner?' = some inner'
  viable : ∀ inner ∈ inner?, ∀ inner' ∈ inner?', ViableItemIf deeper s.lineComments
    (NoSemicolon s.lineComments) (NoSemicolon s.lineComments) inner inner'
  refuses : ∀ inner ∈ inner?, ∀ b, Next s.lineComments (¬ ItemHead ·) b → inner.Refuses b
  refuses' : ∀ inner' ∈ inner?', ∀ b, Next s.lineComments (¬ ItemHead ·) b → inner'.Refuses b
  advances : ∀ inner ∈ inner?, Advances inner
  advances' : ∀ inner' ∈ inner?', Advances inner'

theorem noItem_brace (hrun : TriviaRun s.lineComments w ('}' :: k)) (a l : List Char) :
    NoItem s.lineComments a (w ++ '}' :: l) := by
  refine (next_brace hrun l).mono ?_
  rintro _ rfl
  exact ⟨fun hhead => itemHead_ne hhead rfl (by decide) rfl, by decide⟩

theorem noItem_atBrace (l : List Char) : NoItem s.lineComments [] ('}' :: l) :=
  noItem_brace (k := l) .nil [] l

theorem closeBlock_stops {c place : Cursor} (hc : c.Within)
    (h : (closeBlock s c).StopsAt place) : SkipsRun s.lineComments c place := by
  obtain ⟨r, hr, h⟩ := stopsAt_choice h
  obtain rfl := List.mem_singleton.mp hr
  exact symbol_stops hc h

/-- Items are read, and behind them the brace that closes the block. -/
theorem consumes_blockBody {cs : List Char} (hrun : TriviaRun s.lineComments w ('}' :: l))
    (hitems : (many inner).Consumes cs (w ++ '}' :: l)) :
    (terminated (many inner) (closeBlock s)).Consumes (cs ++ (w ++ ['}'])) l := by
  have hclose : (closeBlock s).Consumes (w ++ ['}']) l :=
    accepts_choice_head (accepts_symbol hrun (noTrivia_cons (by decide) (by decide)) (by simp))
  have hbehind : w ++ '}' :: l = (w ++ ['}']) ++ l := by simp
  exact accepts_terminated (hbehind ▸ hitems) hclose

section

variable (h : DeeperItems deeper s inner? inner?')
include h

theorem many_viable (hinner : inner ∈ inner?) (hinner' : inner' ∈ inner?') :
    ViableItemIf deeper s.lineComments (NoItem s.lineComments) (NoSemicolon s.lineComments)
      (many inner) (many inner') := by
  have hsemicolon : ∀ a b, NoItem s.lineComments a b → NoSemicolon s.lineComments a b :=
    fun _ _ hb => Next.mono (fun _ => And.right) hb
  have hbrace : ∀ b, Next s.lineComments (· = '}') b → Next s.lineComments (¬ ItemHead ·) b :=
    fun _ hb => hb.mono fun x hx hhead => itemHead_ne hhead rfl (by decide) hx
  exact viableItem_many (h.viable inner hinner inner' hinner') (h.advances inner hinner)
    (h.advances' inner' hinner') hsemicolon hsemicolon (fun _ _ => id)
    (fun b hb => h.refuses inner hinner b (hbrace b hb))
    (fun b hb => h.refuses' inner' hinner' b (hbrace b hb))
    fun _ b hb => h.refuses' inner' hinner' b (Next.mono (fun _ => And.left) hb)

/-- The last item of a block may be left open. Where the brace is missing, a semicolon is added to
the item. -/
theorem blockBody_viable (hinner : inner ∈ inner?) (hinner' : inner' ∈ inner?') :
    ViableIf deeper Anything Anything (terminated (many inner) (closeBlock s))
      (terminated (many inner') (closeBlock s)) where
  stays {c v rest} hc hmatch := by
    obtain ⟨mid, t, hmany, hclose⟩ := terminated_matched.mp hmatch
    obtain ⟨cs, isOpen, hcs, -, hstays⟩ := (many_viable h hinner hinner').stays hc hmany
    obtain ⟨-, start, ⟨w, hw, hrun⟩, hbrace⟩ :=
      closeBlock_ensures (s := s) mid t rest (hcs.within hc) hclose
    rw [hbrace.ahead] at hrun
    have hmid : mid.ahead = w ++ '}' :: rest.ahead := by rw [hw.ahead, hbrace.ahead]; rfl
    refine ⟨cs ++ (w ++ ['}']), hcs.trans (hw.trans hbrace), fun l _ => ⟨trivial, ?_⟩⟩
    obtain ⟨-, hread⟩ := hstays [] (w ++ '}' :: l)
      (hmid ▸ follows_brace hrun (noItem_brace hrun _ l) isOpen)
    rw [List.append_nil] at hread
    exact consumes_blockBody (hrun.before_any (List.cons_ne_nil _ _) _) hread
  resumes {c place} hdeeper hc hstop := by
    rcases Outcome.stopsAt_bind (Outcome.stopsAt_map hstop) with hstop | ⟨v, mid, hmany, hstop⟩
    · obtain ⟨cs, x, hcs, hresumes⟩ := (many_viable h hinner hinner').resumes hdeeper hc hstop
      refine ⟨cs, x ++ ['}'], hcs, fun l _ => ⟨trivial, ?_⟩⟩
      rw [← List.append_assoc]
      exact consumes_blockBody .nil (hresumes ('}' :: l) (noItem_atBrace l)).2
    · obtain ⟨cs, isOpen, hcs, -, hstays⟩ := (many_viable h hinner hinner').stays hc hmany
      obtain ⟨w, hw, hrun⟩ := closeBlock_stops (hcs.within hc) (Outcome.stopsAt_map hstop)
      obtain ⟨x, y, z, hsplit, hz, hfollows⟩ := follows_run hrun isOpen
      refine ⟨cs ++ w, x ++ ['}'], hcs.trans_to hw.to, fun l _ => ⟨trivial, ?_⟩⟩
      have hnewline : NoItem s.lineComments (w ++ place.ahead) (w ++ '\n' :: '}' :: l) := by
        have hnext := noItem_brace (hrun.newline ('}' :: l)) (w ++ place.ahead) l
        rwa [List.append_assoc] at hnext
      obtain ⟨-, hread⟩ := hstays y (z ++ '}' :: l)
        (hw.ahead ▸ hfollows ('}' :: l) hnewline (noItem_atBrace l))
      have htext : cs ++ w ++ (x ++ ['}']) = cs ++ y ++ (z ++ ['}']) := by
        rw [List.append_assoc cs, ← List.append_assoc w, hsplit]
        simp only [List.append_assoc]
      exact htext ▸ consumes_blockBody (hz _) hread
  fills hdeeper := by
    obtain ⟨d, hd⟩ := (many_viable h hinner hinner').fills hdeeper
    exact ⟨d ++ ['}'], fun l _ => ⟨trivial,
      consumes_blockBody .nil (hd ('}' :: l) (noItem_atBrace l)).2⟩⟩

/-- Behind its brace a block can be closed at once. -/
theorem consumes_emptyBlock (hinner' : inner' ∈ inner?') {a l : List Char}
    (hopen : (symbol s ['{']).Consumes a ('}' :: l)) :
    (blockOver s inner?').Consumes (a ++ ['}']) l := by
  obtain rfl : inner?' = some inner' := hinner'
  have hbrace : NoItem s.lineComments [] ('}' :: l) := noItem_atBrace l
  exact accepts_blockOver hopen (accepts_cut (consumes_blockBody .nil (consumes_many_nil
    (h.refuses' inner' rfl _ (Next.mono (fun _ => And.left) hbrace)))))

/-- The text up to a place is the beginning of one that ends with the brace of a block. -/
theorem block_closed (hinner' : inner' ∈ inner?') {strict : Bool} {c place : Cursor}
    {a x : List Char} (ha : c.ReadsTo a place)
    (hresumes : ∀ l, Ahead s.lineComments strict (· = '{') c.ahead (a ++ (x ++ l)) ∧
      (symbol s ['{']).Consumes (a ++ x) l) :
    ∃ cs x, c.ReadsTo cs place ∧ ∀ l, Anything [] l →
      Ahead s.lineComments strict (· = '{') c.ahead (cs ++ (x ++ l)) ∧
        (blockOver s inner?').Consumes (cs ++ x) l := by
  refine ⟨a, x ++ ['}'], ha, fun l _ => ?_⟩
  obtain ⟨hahead, hread⟩ := hresumes ('}' :: l)
  rw [List.append_assoc x, ← List.append_assoc a x ['}']]
  exact ⟨hahead, consumes_emptyBlock h hinner' hread⟩

omit h in
/-- The report of a block that is one too many names the place before its brace. -/
theorem brace_resumes {strict : Bool} {c mid : Cursor} {t : Text} (hc : c.Within)
    (hmark : symbol s ['{'] c = .matched t mid) :
    ∃ a, c.ReadsTo a (mid.moveTo (mid.pos - 1)) ∧ ∀ l,
      Ahead s.lineComments strict (· = '{') c.ahead (a ++ (['{'] ++ l)) ∧
        (symbol s ['{']).Consumes (a ++ ['{']) l := by
  have hopen : Viable Anything (Ahead s.lineComments strict (· = '{')) (symbol s ['{'])
      (symbol s ['{']) := symbol_viable (by decide)
  obtain ⟨a, ha, hstays⟩ := hopen.stays hc hmark
  obtain ⟨-, start, ⟨w, hw, -⟩, hbrace⟩ := symbol_ensures (by simp) c t mid hc hmark
  obtain rfl : a = w ++ ['{'] :=
    List.append_cancel_right (ha.ahead.symm.trans (hw.trans hbrace).ahead)
  refine ⟨w, hbrace.back_one ▸ hw.to, fun l => ?_⟩
  rw [← List.append_assoc]
  exact hstays l trivial

/-- Blocks, if the items in them are compared. -/
theorem blockOver_viable {strict : Bool} :
    ViableIf deeper Anything (Ahead s.lineComments strict (· = '{')) (blockOver s inner?)
      (blockOver s inner?') := by
  have hopen : ViableIf deeper Anything (Ahead s.lineComments strict (· = '{')) (symbol s ['{'])
      (symbol s ['{']) := symbol_viable (by decide)
  have hbody : ∀ {inner inner'}, inner ∈ inner? → inner' ∈ inner?' →
      ViableIf deeper Anything Anything (cut (terminated (many inner) (closeBlock s)) "block")
        (cut (terminated (many inner') (closeBlock s)) "block") := fun hinner hinner' =>
    viable_cut (blockBody_viable h hinner hinner')
  exact {
    stays := fun {c v rest} hc hmatch => by
      obtain ⟨t, mid, hmark, hinside⟩ := Outcome.bind_matched.mp hmatch
      obtain ⟨a, ha, hstays⟩ := hopen.stays hc hmark
      cases inner? with
      | none => cases hinside
      | some inner =>
        obtain ⟨inner', rfl⟩ := h.allowed (.inr rfl)
        obtain ⟨items, stop, hitems, hrest⟩ := Outcome.bind_matched.mp hinside
        cases hrest
        obtain ⟨ds, hds, hstays'⟩ := (hbody rfl rfl).stays (ha.within hc).nested hitems
        refine ⟨a ++ ds, ?_, fun l _ => ?_⟩
        · have hall := ha.trans hds.of_nested
          rwa [ha.depth] at hall
        · obtain ⟨hahead, hread⟩ := hstays (ds ++ l) trivial
          rw [List.append_assoc]
          exact ⟨hahead, accepts_blockOver hread (hstays' l trivial).2⟩
    resumes := fun {c place} hdeeper hc hstop => by
      obtain ⟨inner', rfl⟩ := h.allowed (.inl hdeeper)
      rcases Outcome.stopsAt_bind hstop with hstop | ⟨t, mid, hmark, hstop⟩
      · obtain ⟨a, x, ha, hresumes⟩ := hopen.resumes hdeeper hc hstop
        exact block_closed h rfl ha fun l => hresumes l trivial
      · cases inner? with
        | none =>
          cases hstop
          obtain ⟨a, ha, hresumes⟩ := brace_resumes hc hmark
          exact block_closed h rfl ha hresumes
        | some inner =>
          have hinside : (cut (terminated (many inner) (closeBlock s)) "block"
              mid.nested).StopsAt place := by
            rcases Outcome.stopsAt_bind hstop with hstop | ⟨items, stop, -, hstop⟩
            · exact hstop
            · cases hstop
          obtain ⟨a, ha, hstays⟩ := hopen.stays hc hmark
          obtain ⟨ds, x, hds, hresumes⟩ :=
            (hbody rfl rfl).resumes hdeeper (ha.within hc).nested hinside
          refine ⟨a ++ ds, x, ha.trans_to hds.of_nested, fun l _ => ?_⟩
          obtain ⟨hahead, hread⟩ := hstays (ds ++ x ++ l) trivial
          simp only [List.append_assoc] at hahead hread ⊢
          rw [← List.append_assoc ds] at hread
          exact ⟨hahead, accepts_blockOver hread (hresumes l trivial).2⟩
    fills hdeeper := by
      obtain ⟨inner', rfl⟩ := h.allowed (.inl hdeeper)
      obtain ⟨d, hd⟩ := hopen.fills hdeeper
      refine ⟨d ++ ['}'], fun l _ => ?_⟩
      obtain ⟨hahead, hread⟩ := hd ('}' :: l) trivial
      rw [List.append_assoc]
      exact ⟨hahead, consumes_emptyBlock h rfl hread⟩ }

/-- What stands before a block, and the block. -/
theorem viable_beforeBlock {K : List Char → List Char → Prop}
    (hrule : ViableIf deeper (Ahead s.lineComments false (· = '{')) K rule rule') :
    ViableIf deeper Anything K (both rule (blockOver s inner?))
      (both rule' (blockOver s inner?')) :=
  viable_both hrule (blockOver_viable h)

theorem mixinDeclarationOver_viable :
    ViableIf deeper Anything (Ahead s.lineComments false fun x => x = '#' ∨ x = '.')
      (mixinDeclarationOver s inner?) (mixinDeclarationOver s inner?') := by
  have hparens : ViableIf deeper Anything (Ahead s.lineComments false (· = '(')) (emptyParens s)
      (emptyParens s) := emptyParens_viable
  have hname : ViableIf deeper Anything (Ahead s.lineComments false fun x => x = '#' ∨ x = '.')
      (terminated (token s mixinName) (emptyParens s))
      (terminated (token s mixinName) (emptyParens s)) :=
    viable_terminated mixinName_viable (hparens.mono (fun _ _ => id) fun _ _ hahead => hahead.1)
  exact viable_map (viable_beforeBlock h (hname.mono (fun _ _ _ => trivial) fun _ _ => id))

theorem qualifiedRuleOver_viable :
    ViableIf deeper Anything (Ahead s.lineComments false SelectorHead) (qualifiedRuleOver s inner?)
      (qualifiedRuleOver s inner?') := by
  refine viable_map (viable_beforeBlock h (selectorGroup_viable.mono (fun _ _ =>
    Ahead.mono ?_) fun _ _ => id))
  rintro x rfl
  decide

end

/-! ### Variables -/

/-- What stands behind the colon of a variable. -/
def variableTail (s : Settings) (levels : Nat) (inner? : Option (Rule Item)) : Rule Value :=
  fun c => (cut (variableValueOver s levels inner?) "variable declaration" c).bind fun found stop =>
    (cut (variableEnd s found) "variable declaration" stop).map fun _ => found

theorem variableDeclarationOver_eq (levels : Nat) : variableDeclarationOver s levels inner? =
    map (fun found => Item.variable found.1 found.2)
      (both (terminated (token s atName) (symbol s [':'])) (variableTail s levels inner?)) := by
  funext c
  rw [← bind_map_eq]
  unfold variableDeclarationOver
  congr 1
  funext declared rest
  unfold variableTail
  cases cut (variableValueOver s levels inner?) "variable declaration" rest with
  | matched found stop =>
    dsimp only [Outcome.bind]
    cases cut (variableEnd s found) "variable declaration" stop <;> rfl
  | _ => rfl

/-- A block as the value of a variable, and what ends it. -/
def blockTail (s : Settings) (inner? : Option (Rule Item)) : Rule (List Item × Option Text) :=
  both (blockOver s inner?) (opt (symbol s [';']))

/-- Any other value of a variable, and what ends it. -/
def valueTail (s : Settings) (levels : Nat) : Rule (Value × Option Text) :=
  both (valueAt s levels) (terminator s)

theorem ruleset_of_block {c rest : Cursor} {block : List Item} {levels : Nat}
    (h : blockOver s inner? c = .matched block rest) :
    variableValueOver s levels inner? c = .matched (.ruleset block) rest :=
  choice_head (map_matched.mpr ⟨block, h, rfl⟩)

/-- A value begins with something else than a block. -/
theorem next_of_value {c rest : Cursor} {v : Value} {levels : Nat} (hc : c.Within)
    (h : valueAt s levels c = .matched v rest) : Next s.lineComments (· ∉ nonHeads) c.ahead := by
  obtain ⟨commas, hcommas, -⟩ := map_matched.mp h
  obtain ⟨_, _, hspaces, -⟩ := Outcome.bind_matched.mp hcommas
  obtain ⟨spaces, hspaces, -⟩ := map_matched.mp hspaces
  obtain ⟨_, _, hslashes, -⟩ := Outcome.bind_matched.mp hspaces
  obtain ⟨slashes, hslashes, -⟩ := map_matched.mp hslashes
  obtain ⟨first, mid, hfirst, -⟩ := Outcome.bind_matched.mp hslashes
  have hsame : Deeper False s (argument? s levels) (argument? s levels) :=
    argument?_deeper (Nat.le_refl levels) nofun
  obtain ⟨cs, hcs, hstays⟩ := (primitiveOver_viable hsame).stays hc hfirst
  rw [hcs.ahead]
  exact (hstays mid.ahead (.refl _)).1.next

theorem value_of_value {c rest : Cursor} {v : Value} {levels : Nat} (hc : c.Within)
    (h : valueAt s levels c = .matched v rest) :
    variableValueOver s levels inner? c = .matched v rest := by
  have hnext : Next s.lineComments (· ≠ '{') c.ahead := (next_of_value hc h).mono fun x hx hbrace =>
    hx (hbrace ▸ by decide)
  exact choice_tail (map_misses (blockOver_refuses hnext c hc rfl)) (choice_head h)

theorem variableEnd_of_value {c rest : Cursor} {v : Value} {levels : Nat} (hc : c.Within)
    (h : valueAt s levels c = .matched v rest) : variableEnd s v = terminator s := by
  have hwritten := (valueAt_written levels c v rest hc h).2
  rcases variableEnd_cases v with ⟨⟨block, rfl⟩, -⟩ | hend
  · cases hwritten
  · exact hend

/-- What the value is decides what ends it. -/
theorem variableValueOver_cases {c rest : Cursor} {v : Value} {levels : Nat} (hc : c.Within)
    (h : variableValueOver s levels inner? c = .matched v rest) :
    (∃ block, blockOver s inner? c = .matched block rest ∧ variableEnd s v = opt (symbol s [';'])) ∨
      valueAt s levels c = .matched v rest ∧ variableEnd s v = terminator s := by
  rcases choice_cons_matched h with h | ⟨-, h⟩
  · obtain ⟨block, hblock, rfl⟩ := map_matched.mp h
    exact .inl ⟨block, hblock, rfl⟩
  · have hvalue : valueAt s levels c = .matched v rest := relabel_matched.mp h
    exact .inr ⟨hvalue, variableEnd_of_value hc hvalue⟩

theorem variableTail_matched {c rest : Cursor} {v : Value} {levels : Nat} (hc : c.Within)
    (h : variableTail s levels inner? c = .matched v rest) :
    (∃ u, blockTail s inner? c = .matched u rest) ∨
      ∃ u, valueTail s levels c = .matched u rest := by
  obtain ⟨found, stop, hvalue, hend⟩ := Outcome.bind_matched.mp h
  obtain ⟨mark, hend, -⟩ := Outcome.map_matched.mp hend
  rw [cut_matched] at hvalue hend
  rcases variableValueOver_cases hc hvalue with ⟨block, hblock, hmark⟩ | ⟨hvalue, hmark⟩
  · rw [hmark] at hend
    exact .inl ⟨(block, mark), both_matched.mpr ⟨stop, hblock, hend⟩⟩
  · rw [hmark] at hend
    exact .inr ⟨(found, mark), both_matched.mpr ⟨stop, hvalue, hend⟩⟩

theorem variableTail_stops {c place : Cursor} {levels : Nat} (hc : c.Within)
    (h : (variableTail s levels inner? c).StopsAt place) :
    (blockTail s inner? c).StopsAt place ∨ (valueTail s levels c).StopsAt place := by
  unfold blockTail valueTail both
  rcases Outcome.stopsAt_bind h with h | ⟨found, stop, hvalue, h⟩
  · obtain ⟨r, hr, h⟩ := stopsAt_choice (stopsAt_cut h)
    simp only [List.mem_cons, List.not_mem_nil, or_false] at hr
    rcases hr with rfl | rfl
    · exact .inl (Outcome.stopsAt_map h).bind
    · exact .inr h.bind
  · have hend := stopsAt_cut (Outcome.stopsAt_map h)
    rw [cut_matched] at hvalue
    rcases variableValueOver_cases hc hvalue with ⟨block, hblock, hmark⟩ | ⟨hvalue, hmark⟩
    · rw [hmark] at hend
      rw [hblock]
      exact .inl hend.bind
    · rw [hmark] at hend
      rw [hvalue]
      exact .inr hend.bind

theorem variableTail_of_value {c mid rest : Cursor} {v : Value} {mark : Option Text} {levels : Nat}
    (hvalue : variableValueOver s levels inner? c = .matched v mid)
    (hend : variableEnd s v mid = .matched mark rest) :
    variableTail s levels inner? c = .matched v rest :=
  Outcome.bind_matched.mpr ⟨v, mid, cut_matched.mpr hvalue,
    Outcome.map_matched.mpr ⟨mark, cut_matched.mpr hend, rfl⟩⟩

theorem consumes_blockTail {cs : List Char} {levels : Nat}
    (h : (blockTail s inner?).Consumes cs l) : (variableTail s levels inner?).Consumes cs l := by
  intro c hc hahead
  obtain ⟨⟨block, mark⟩, hv, -⟩ := h c hc hahead
  obtain ⟨mid, hblock, hend⟩ := both_matched.mp hv
  exact ⟨.ruleset block, variableTail_of_value (ruleset_of_block hblock) hend, trivial⟩

theorem consumes_valueTail {cs : List Char} {levels : Nat}
    (h : (valueTail s levels).Consumes cs l) : (variableTail s levels inner?).Consumes cs l := by
  intro c hc hahead
  obtain ⟨⟨v, mark⟩, hv, -⟩ := h c hc hahead
  obtain ⟨mid, hvalue, hend⟩ := both_matched.mp hv
  rw [← variableEnd_of_value hc hvalue] at hend
  exact ⟨v, variableTail_of_value (value_of_value hc hvalue) hend, trivial⟩

section

variable (h : DeeperItems deeper s inner? inner?')
include h

theorem blockTail_viable :
    ViableIf deeper (NoSemicolon s.lineComments) Anything (blockTail s inner?)
      (blockTail s inner?') := by
  have hsemicolon : ViableIf deeper Anything (Ahead s.lineComments true (· = ';')) (symbol s [';'])
      (symbol s [';']) := symbol_viable (by decide)
  have hend : ViableIf deeper (NoSemicolon s.lineComments) Anything (opt (symbol s [';']))
      (opt (symbol s [';'])) :=
    viable_opt (hsemicolon.mono (fun _ _ => id) fun _ _ _ => trivial) (fun _ _ _ => trivial)
      (fun _ _ _ => trivial) fun _ _ hnext => symbol_refuses_next hnext
  have hblock : ViableIf deeper Anything (Ahead s.lineComments true (· = '{')) (blockOver s inner?)
      (blockOver s inner?') := blockOver_viable h
  exact viable_both (hblock.mono (fun _ _ => id) fun _ _ _ => trivial) hend

theorem variableTail_viable {levels levels' : Nat} (hle : levels ≤ levels')
    (hdeeper : deeper → levels < levels') :
    ViableItemIf deeper s.lineComments (NoSemicolon s.lineComments) Anything
      (variableTail s levels inner?) (variableTail s levels' inner?') := by
  have hblock : ViableItemIf deeper s.lineComments (NoSemicolon s.lineComments) Anything
      (blockTail s inner?) (variableTail s levels' inner?') :=
    (viableItem_of_viable (blockTail_viable h)).trans fun _ _ => consumes_blockTail
  have hends : ViableItemIf deeper s.lineComments Anything
      (Ahead s.lineComments true (· ∈ valueEnds)) (terminator s) (terminator s) :=
    terminator_viable.mono (fun _ _ => id) fun _ _ => Ahead.mono (forall_mem_of_all rfl)
  have hvalue : ViableItemIf deeper s.lineComments (NoSemicolon s.lineComments) Anything
      (valueTail s levels) (variableTail s levels' inner?') :=
    ((viableItem_both (valueAt_viableIf hle hdeeper) hends).mono (fun _ _ _ => trivial)
      fun _ _ _ => trivial).trans fun _ _ => consumes_valueTail
  exact {
    stays := fun {c v rest} hc hmatch => by
      rcases variableTail_matched hc hmatch with ⟨u, hu⟩ | ⟨u, hu⟩
      · exact hblock.stays hc hu
      · exact hvalue.stays hc hu
    resumes := fun {c place} hdeeper hc hstop => by
      rcases variableTail_stops hc hstop with hstop | hstop
      · exact hblock.resumes hdeeper hc hstop
      · exact hvalue.resumes hdeeper hc hstop
    fills := hvalue.fills }

theorem variableDeclarationOver_viable {levels levels' : Nat} (hle : levels ≤ levels')
    (hdeeper : deeper → levels < levels') :
    ViableItemIf deeper s.lineComments (NoSemicolon s.lineComments)
      (Ahead s.lineComments false (· = '@')) (variableDeclarationOver s levels inner?)
      (variableDeclarationOver s levels' inner?') := by
  rw [variableDeclarationOver_eq, variableDeclarationOver_eq]
  exact viableItem_map (viableItem_both (viable_declared (token_viable atName_lexeme))
    (variableTail_viable h hle hdeeper))

/-! ## All kinds -/

/-- Each kind begins with something else than a semicolon, and what it reads is the item. -/
theorem itemOver_viable {levels levels' : Nat} (hle : levels ≤ levels')
    (hdeeper : deeper → levels < levels') :
    ViableItemIf deeper s.lineComments (NoSemicolon s.lineComments) (NoSemicolon s.lineComments)
      (itemOver s levels inner?) (itemOver s levels' inner?') := by
  have hkind : ∀ {rule rule' : Rule Item} {p : Char → Prop},
      rule' ∈ kindsOver s levels' inner?' → (∀ x, p x → x ≠ ';') →
      ViableItemIf deeper s.lineComments (NoSemicolon s.lineComments)
        (Ahead s.lineComments false p) rule rule' →
      ViableItemIf deeper s.lineComments (NoSemicolon s.lineComments) (NoSemicolon s.lineComments)
        rule (itemOver s levels' inner?') := by
    intro rule rule' p hmem hp hrule
    refine (hrule.mono (fun _ _ => id) fun _ _ hahead => hahead.next.mono hp).trans ?_
    intro cs l hread c hc hahead
    obtain ⟨x, hx, -⟩ := hread c hc hahead
    exact ⟨x, item_of_kind hc hmem hx, trivial⟩
  have hname : ∀ x, isNameChar x = true → x ≠ ';' := fun x hx => ne_of_class hx rfl
  have hstep : ∀ x, x = '#' ∨ x = '.' → x ≠ ';' := by
    rintro x (rfl | rfl) <;> decide
  have hat : ∀ x, x = '@' → x ≠ ';' := by
    rintro x rfl
    decide
  refine viableItem_choice fun r hr => ?_
  simp only [List.mem_cons, List.not_mem_nil, or_false] at hr
  rcases hr with rfl | rfl | rfl | rfl | rfl | rfl
  · exact hkind (by simp [kindsOver]) hstep (viableItem_of_viable
      ((mixinDeclarationOver_viable h).mono (fun _ _ _ => trivial) fun _ _ => id))
  · exact hkind (by simp [kindsOver]) hname ((declarationAt_viableIf hle hdeeper).mono
      (fun _ _ _ => trivial) fun _ _ => id)
  · exact hkind (by simp [kindsOver]) hstep (mixinCall_viable.mono (fun _ _ _ => trivial)
      fun _ _ => id)
  · refine hkind (by simp [kindsOver]) (fun x hx => ?_) (viableItem_of_viable
      ((qualifiedRuleOver_viable h).mono (fun _ _ _ => trivial) fun _ _ => id))
    rcases hx with hx | hx
    · exact hname x hx
    · rintro rfl
      exact absurd hx (by decide)
  · exact hkind (by simp [kindsOver]) hat (variableDeclarationOver_viable h hle hdeeper)
  · exact hkind (by simp [kindsOver]) hat (variableCall_viable.mono (fun _ _ _ => trivial)
      fun _ _ => id)

end

/-! ## All levels -/

/-- With more levels left a block may be opened where none could be. -/
theorem innerItem?_deeper {levels levels' : Nat} (hle : levels ≤ levels')
    (hdeeper : deeper → levels < levels') :
    DeeperItems deeper s (innerItem? s levels) (innerItem? s levels') := by
  have hrefuses : ∀ levels, ∀ inner ∈ innerItem? s levels, ∀ b,
      Next s.lineComments (¬ ItemHead ·) b → inner.Refuses b := by
    rintro (_ | levels) inner ⟨⟩ b hb
    exact itemOver_refuses hb
  have hadvances : ∀ levels, ∀ inner ∈ innerItem? s levels, Advances inner := by
    rintro (_ | levels) inner ⟨⟩
    exact itemAt_advances levels
  induction levels generalizing levels' with
  | zero =>
    refine ⟨fun hallowed => ?_, nofun, nofun, hrefuses levels', nofun, hadvances levels'⟩
    have hmore : 0 < levels' := hallowed.elim hdeeper nofun
    obtain ⟨n, rfl⟩ := Nat.exists_eq_add_of_lt hmore
    exact ⟨_, rfl⟩
  | succ levels ih =>
    obtain ⟨n, rfl⟩ := Nat.exists_eq_add_of_le' hle
    refine ⟨fun _ => ⟨_, rfl⟩, ?_, hrefuses (levels + 1), hrefuses _, hadvances (levels + 1),
      hadvances _⟩
    rintro inner ⟨⟩ inner' ⟨⟩
    have hle' : levels ≤ n + levels := Nat.le_add_left levels n
    have hdeeper' : deeper → levels < n + levels := fun h => Nat.lt_of_succ_lt_succ (hdeeper h)
    exact itemOver_viable (ih hle' hdeeper') hle' hdeeper'

theorem itemAt_viable (levels : Nat) :
    ViableItem s.lineComments (NoSemicolon s.lineComments) (NoSemicolon s.lineComments)
      (itemAt s levels) (itemAt s (levels + 1)) :=
  itemOver_viable (innerItem?_deeper (Nat.le_succ levels) fun _ => Nat.lt_succ_self levels)
    (Nat.le_succ levels) fun _ => Nat.lt_succ_self levels

/-- Items with the given numbers of levels left. -/
theorem items_viableIf {levels levels' : Nat} (hle : levels ≤ levels')
    (hdeeper : deeper → levels < levels') :
    ViableItemIf deeper s.lineComments (NoItem s.lineComments) (NoSemicolon s.lineComments)
      (many (itemAt s levels)) (many (itemAt s levels')) :=
  many_viable (innerItem?_deeper (Nat.succ_le_succ hle) fun h => Nat.succ_lt_succ (hdeeper h)) rfl
    rfl

/-- Items with one more level left. -/
theorem items_viable (levels : Nat) :
    ViableItem s.lineComments (NoItem s.lineComments) (NoSemicolon s.lineComments)
      (many (itemAt s levels)) (many (itemAt s (levels + 1))) :=
  items_viableIf (Nat.le_succ levels) fun _ => Nat.lt_succ_self levels

end LessSyntax.Grammar
