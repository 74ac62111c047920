import LessSyntax.Proofs.ItemReading
import LessSyntax.Proofs.Limited
import LessSyntax.Proofs.Nesting
import LessSyntax.Proofs.WholeSource

/-!
# The limit on the nesting

The settings bound how many blocks and calls may be open at once. A text that is read under one
limit is read under a smaller one exactly when the tree is nested no deeper, and then as the same
tree. Otherwise the report names the limit and stands where one block or one call too many opens.

* `valueAt_limits`, `itemAt_limits`: two runs of the grammar agree up to the smaller limit.
* `Entry.parse_limit`: the limit is exact for whatever a source is read as.
* `Entry.parse_raised`: a higher limit changes no answer but the reports of the limit.
-/

namespace LessSyntax.Grammar

open Rule

variable {α β : Type} {s s' : Settings} {levels levels' : Nat}

/-! ## Settings that agree on comments -/

section

variable (h : s'.lineComments = s.lineComments)
include h

theorem trivia_congr : trivia s' = trivia s := by
  unfold trivia triviaUnit
  rw [h]

theorem token_congr (rule : Rule α) : token s' rule = token s rule := by
  unfold token
  rw [trivia_congr h]

theorem symbol_congr (chars : List Char) : symbol s' chars = symbol s chars := by
  unfold symbol
  rw [token_congr h]

end

/-! ## What opens a level -/

theorem ReadsSymbol.advances {lineComments : Bool} {chars : List Char} (hne : chars ≠ [])
    {c rest : Cursor} (h : ReadsSymbol lineComments chars c rest) : c.pos < rest.pos := by
  obtain ⟨mid, ⟨w, hskip, -⟩, hreads⟩ := h
  have hlength := List.length_pos_iff.mpr hne
  have hmid := hskip.pos
  have hrest := hreads.pos
  omega

theorem symbol_advances {chars : List Char} (hne : chars ≠ []) :
    (symbol s chars).Ensures fun c _ rest => c.pos < rest.pos :=
  ensures_mono (symbol_ensures hne) fun _ _ _ _ _ h => h.advances hne

/-- The rules for what is one level deeper, in two runs. In the first run there is none when no
level is left. -/
inductive LimitsInner (s : Settings) (nest : α → Nat) :
    Nat → Option (Rule α) → Option (Rule α) → Prop
  | none {large? : Option (Rule α)}
    (hlarge : ∀ large ∈ large?, Ensures large fun _ _ _ => True) :
    LimitsInner s nest 0 none large?
  | some {levels : Nat} {small large : Rule α} (h : Limits s nest levels small large) :
    LimitsInner s nest (levels + 1) (some small) (some large)

/-! ## Values -/

theorem nesting_collapse (separator : Separator) (vs : OneOrMore Value) :
    (collapse separator vs).nesting = Value.nestingAll vs.toList := by
  obtain ⟨first, others⟩ := vs
  cases others with
  | nil => exact (Nat.max_zero _).symm
  | cons v vs => rfl

section

variable (h : s'.lineComments = s.lineComments)
include h

theorem arguments_limits {small large : Rule Value}
    (hrule : Limits s Value.nesting levels small large) :
    Limits s Value.nestingAll levels (arguments s small) (arguments s' large) := by
  unfold arguments
  rw [symbol_congr h, symbol_congr h]
  refine limits_map (limits_cut_terminated (limits_opt ?_ rfl)
    (ensures_mono (symbol_ensures (by simp)) fun _ _ _ _ _ _ => trivial))
  exact limits_separated1 rfl (fun _ _ => rfl) hrule (symbol_advances (by simp))

theorem callOver_limits {small? large? : Option (Rule Value)}
    (hinner : LimitsInner s Value.nesting levels small? large?) :
    Limits s Value.nesting levels (callOver s small?) (callOver s' large?) := by
  intro c hc
  unfold callOver
  cases hname : name c with
  | missed place expected => exact .missed
  | failed place expected blamed => exact .missed
  | matched callee named =>
    obtain ⟨hreach, cs, hreads, -⟩ := name_reads c callee named hc hname
    have hnamed := hreach.within hc
    dsimp only
    by_cases hparen : named.startsWith ['('] = true
    · rw [if_pos hparen, if_pos hparen]
      have hopen := Cursor.Reads.of_startsWith hnamed hparen
      have hopened : c.Reaches (named.advance 1) := hreach.trans ⟨_, hopen⟩
      have hpos : c.pos < (named.advance 1).pos := by
        have hle := hreach.pos_le
        rw [Cursor.pos_advance]
        omega
      cases hinner with
      | some hrule =>
        exact limited_of_nested hopened
          (arguments_limits h hrule _ (hopened.within hc).nested) fun _ => rfl
      | none hlarge =>
        refine .atLimit (.call hreach.text hnamed.1 hopen.ahead) ?_
        cases large? with
        | none => exact .failed
        | some large =>
          refine readsDeeper_of_nested hc (neverMisses_map (neverMisses_cut _ _)) ?_ hopened hpos
            fun _ => Nat.succ_pos _
          exact ensures_mono (arguments_ensures (hlarge large rfl)) fun _ _ _ _ _ _ => trivial
    · rw [if_neg hparen, if_neg hparen]
      exact .missed

theorem primitiveOver_limits {small? large? : Option (Rule Value)}
    (hinner : LimitsInner s Value.nesting levels small? large?) :
    Limits s Value.nesting levels (primitiveOver s small?) (primitiveOver s' large?) := by
  unfold primitiveOver
  rw [token_congr h]
  refine limits_bind_free (ensures_mono trivia_ensures fun _ _ _ _ _ _ => trivial) fun _ => ?_
  refine limits_choice (limits_firstOf (limits_free ?_) (limits_firstOf (limits_free ?_)
    (limits_firstOf (limits_free ?_) (limits_firstOf (limits_free ?_)
      (limits_firstOf (callOver_limits h hinner) (limits_firstOf (limits_free ?_)
        (limits_firstOf (limits_free ?_) (limits_free ?_))))))))
  · refine ensures_mono quotedString_ensures fun c v rest _ _ hread => ?_
    cases hread <;> rfl
  · intro c v rest hc hread
    obtain ⟨t, hmark, hhex, -, rfl⟩ := color_matched hc hread
    exact ⟨⟨_, hmark.trans hhex⟩, rfl⟩
  · intro c v rest hc hread
    have hnumber := number_matched hc hread
    refine ⟨hnumber.reaches, ?_⟩
    cases hnumber <;> rfl
  · refine ensures_mono url_ensures fun c v rest _ _ hread => ?_
    cases hread
    rfl
  · exact ensures_map (ensures_mono atName_reads fun _ _ _ _ _ _ => rfl)
  · exact ensures_map (nameAfter_ensures fun _ _ _ _ _ _ _ => rfl)
  · exact ensures_map (ensures_mono name_reads fun _ _ _ _ _ _ => rfl)

theorem spaceListOver_limits {small? large? : Option (Rule Value)}
    (hinner : LimitsInner s Value.nesting levels small? large?) :
    Limits s Value.nesting levels (spaceListOver s small?) (spaceListOver s' large?) := by
  have hslash : Limits s Value.nesting levels (slashListOver s small?)
      (slashListOver s' large?) := by
    unfold slashListOver
    rw [symbol_congr h]
    apply limits_map
    simp only [nesting_collapse]
    exact limits_separated1 rfl (fun _ _ => rfl) (primitiveOver_limits h hinner)
      (symbol_advances (by simp))
  apply limits_map
  simp only [nesting_collapse]
  exact limits_many1 rfl (fun _ _ => rfl) hslash

theorem commaListOver_limits {small? large? : Option (Rule Value)}
    (hinner : LimitsInner s Value.nesting levels small? large?) :
    Limits s Value.nesting levels (commaListOver s small?) (commaListOver s' large?) := by
  unfold commaListOver
  rw [symbol_congr h]
  apply limits_map
  simp only [nesting_collapse]
  exact limits_separated1 rfl (fun _ _ => rfl) (spaceListOver_limits h hinner)
    (symbol_advances (by simp))

/-- Arguments at a number of levels that are left in the first run, and at no fewer in the
second. -/
theorem argument?_limits (hle : levels ≤ levels') :
    LimitsInner s Value.nesting levels (argument? s levels) (argument? s' levels') := by
  induction levels' generalizing levels with
  | zero =>
    obtain rfl : levels = 0 := by omega
    exact .none (by simp [argument?])
  | succ levels' ih =>
    cases levels with
    | succ levels => exact .some (spaceListOver_limits h (ih (by omega)))
    | zero =>
      refine .none fun large hlarge => ?_
      cases hlarge
      exact (spaceListOver_limits h (ih (Nat.le_refl levels'))).ensures

theorem valueAt_limits (hle : levels ≤ levels') :
    Limits s Value.nesting levels (valueAt s levels) (valueAt s' levels') :=
  commaListOver_limits h (argument?_limits h hle)

end

/-! ## Items -/

section

variable (h : s'.lineComments = s.lineComments)

section

include h

theorem terminator_congr : terminator s' = terminator s := by
  unfold terminator
  rw [symbol_congr h, symbol_congr h, token_congr h]

theorem important_congr : important s' = important s := by
  unfold important
  rw [symbol_congr h, trivia_congr h]

theorem emptyParens_congr : emptyParens s' = emptyParens s := by
  unfold emptyParens
  rw [symbol_congr h, symbol_congr h]

theorem closeBlock_congr : closeBlock s' = closeBlock s := by
  unfold closeBlock
  rw [symbol_congr h]

theorem variableEnd_congr : variableEnd s' = variableEnd s := by
  ext v
  unfold variableEnd
  rw [symbol_congr h, terminator_congr h]

theorem selectorGroup_congr : selectorGroup s' = selectorGroup s := by
  unfold selectorGroup simpleSelector
  rw [symbol_congr h, token_congr h]

theorem mixinPath_congr : mixinPath s' = mixinPath s := by
  unfold mixinPath mixinJoint
  rw [symbol_congr h, token_congr h]

theorem mixinCall_congr : mixinCall s' = mixinCall s := by
  unfold mixinCall
  rw [mixinPath_congr h, emptyParens_congr h, terminator_congr h]

theorem variableCall_congr : variableCall s' = variableCall s := by
  unfold variableCall
  rw [token_congr h, emptyParens_congr h, terminator_congr h]

end

/-- What the nesting of a block is in the nesting of its items. -/
def blockNesting (items : List Item) : Nat := Item.nestingAll items + 1

variable {small? large? : Option (Rule Item)}

include h

theorem blockOver_limits (hinner : LimitsInner s Item.nesting levels small? large?) :
    Limits s blockNesting levels (blockOver s small?) (blockOver s' large?) := by
  intro c hc
  unfold blockOver
  rw [symbol_congr h, closeBlock_congr h]
  cases hopen : symbol s ['{'] c with
  | missed place expected => exact .missed
  | failed place expected blamed => exact .failed
  | matched t opened =>
    obtain ⟨hreach, mid, ⟨w, hw, -⟩, hbrace⟩ := symbol_ensures (by simp) c t opened hc hopen
    obtain ⟨-, hpos⟩ := symbol_advances (by simp) c t opened hc hopen
    dsimp only [Outcome.bind]
    cases hinner with
    | some hrule =>
      refine limited_of_nested hreach
        (limits_cut_terminated (limits_many rfl (fun _ _ => rfl) hrule)
        (ensures_mono closeBlock_ensures fun _ _ _ _ _ _ => trivial) _
        (hreach.within hc).nested) fun _ => rfl
    | none hlarge =>
      dsimp only
      rw [hbrace.back_one]
      refine .atLimit (.block hw.text (hw.within hc).1 hbrace.ahead) ?_
      cases large? with
      | none => exact .failed
      | some large =>
        refine readsDeeper_of_nested hc (neverMisses_cut _ _) ?_ hreach hpos fun _ => Nat.succ_pos _
        exact ensures_cut (ensures_terminated (many_ensures (hlarge large rfl)) closeBlock_ensures
          fun _ _ _ _ _ _ _ _ _ => trivial)

theorem qualifiedRuleOver_limits (hinner : LimitsInner s Item.nesting levels small? large?) :
    Limits s Item.nesting levels (qualifiedRuleOver s small?) (qualifiedRuleOver s' large?) := by
  unfold qualifiedRuleOver
  rw [selectorGroup_congr h]
  refine limits_map (limits_both_free ?_ (blockOver_limits h hinner))
  exact ensures_mono selectorGroup_ensures fun _ _ _ _ _ _ => trivial

theorem mixinDeclarationOver_limits (hinner : LimitsInner s Item.nesting levels small? large?) :
    Limits s Item.nesting levels (mixinDeclarationOver s small?)
      (mixinDeclarationOver s' large?) := by
  unfold mixinDeclarationOver
  rw [token_congr h, emptyParens_congr h]
  refine limits_map (limits_both_free ?_ (blockOver_limits h hinner))
  exact ensures_terminated mixinName_ensures emptyParens_ensures fun _ _ _ _ _ _ _ _ _ => trivial

theorem variableValueOver_limits (hinner : LimitsInner s Item.nesting levels small? large?)
    (hle : levels ≤ levels') :
    Limits s Value.nesting levels (variableValueOver s levels small?)
      (variableValueOver s' levels' large?) :=
  limits_choice (limits_firstOf (limits_map (blockOver_limits h hinner)) (valueAt_limits h hle))

theorem variableDeclarationOver_limits (hinner : LimitsInner s Item.nesting levels small? large?)
    (hle : levels ≤ levels') :
    Limits s Item.nesting levels (variableDeclarationOver s levels small?)
      (variableDeclarationOver s' levels' large?) := by
  unfold variableDeclarationOver
  rw [token_congr h, symbol_congr h, variableEnd_congr h]
  refine limits_bind_free ?_ fun t => limits_bind
    (limits_cut (variableValueOver_limits h hinner hle)) (fun v hv => ?_) (fun v hv => ?_)
    fun v => neverMisses_map (neverMisses_cut _ _)
  · exact ensures_terminated (token_ensures atName_reads) (symbol_ensures (by simp))
      fun _ _ _ _ _ _ _ _ _ => trivial
  · exact limits_map_within (fun _ => hv)
      (ensures_cut (ensures_mono (variableEnd_ensures v) fun _ _ _ _ _ _ => trivial))
  · exact ensures_map (ensures_cut (ensures_mono (variableEnd_ensures v) fun _ _ _ _ _ _ => hv))

theorem declarationAt_limits (hle : levels ≤ levels') :
    Limits s Item.nesting levels (declarationAt s levels) (declarationAt s' levels') := by
  unfold declarationAt
  rw [token_congr h, symbol_congr h, important_congr h, terminator_congr h, cut_both, cut_both]
  refine limits_bind_free ?_ fun t =>
    limits_map (f := fun found : Value × Bool => Item.declaration t found.1 found.2) ?_
  · exact ensures_terminated (token_ensures name_reads) (symbol_ensures (by simp))
      fun _ _ _ _ _ _ _ _ _ => trivial
  · have hend : Limits s (fun _ => 0) levels
        (cut (terminated (important s) (terminator s)) "declaration")
        (cut (terminated (important s) (terminator s)) "declaration") :=
      limits_cut_free (ensures_terminated important_ensures terminator_ensures
        fun _ _ _ _ _ _ _ _ _ => trivial)
    have hvalue : Limits s Value.nesting levels (cut (valueAt s levels) "declaration")
        (cut (valueAt s' levels') "declaration") := limits_cut (valueAt_limits h hle)
    have hboth := limits_both hvalue hend (neverMisses_cut _ _)
    simp only [Nat.max_zero] at hboth
    exact hboth

theorem itemOver_limits (hinner : LimitsInner s Item.nesting levels small? large?)
    (hle : levels ≤ levels') :
    Limits s Item.nesting levels (itemOver s levels small?) (itemOver s' levels' large?) := by
  unfold itemOver
  rw [mixinCall_congr h, variableCall_congr h]
  have hmixinCall : (mixinCall s).Ensures fun _ x _ => x.nesting = 0 :=
    ensures_map (ensures_terminated (ensures_terminated mixinPath_ensures emptyParens_ensures
      fun _ _ _ _ _ _ _ _ _ => trivial) (ensures_cut terminator_ensures)
      fun _ _ _ _ _ _ _ _ _ => rfl)
  have hvariableCall : (variableCall s).Ensures fun _ x _ => x.nesting = 0 :=
    ensures_map (ensures_terminated (ensures_terminated (token_ensures atName_reads)
      emptyParens_ensures fun _ _ _ _ _ _ _ _ _ => trivial) (ensures_cut terminator_ensures)
      fun _ _ _ _ _ _ _ _ _ => rfl)
  exact limits_choice (limits_firstOf (mixinDeclarationOver_limits h hinner)
    (limits_firstOf (declarationAt_limits h hle) (limits_firstOf (limits_free hmixinCall)
      (limits_firstOf (qualifiedRuleOver_limits h hinner)
        (limits_firstOf (variableDeclarationOver_limits h hinner hle)
          (limits_free hvariableCall))))))

theorem innerItem?_limits (hle : levels ≤ levels') :
    LimitsInner s Item.nesting levels (innerItem? s levels) (innerItem? s' levels') := by
  induction levels' generalizing levels with
  | zero =>
    obtain rfl : levels = 0 := by omega
    exact .none (by simp [innerItem?])
  | succ levels' ih =>
    cases levels with
    | succ levels => exact .some (itemOver_limits h (ih (by omega)) (by omega))
    | zero =>
      refine .none fun large hlarge => ?_
      cases hlarge
      exact (itemOver_limits h (ih (Nat.le_refl levels')) (Nat.le_refl levels')).ensures

theorem itemAt_limits (hle : levels ≤ levels') :
    Limits s Item.nesting levels (itemAt s levels) (itemAt s' levels') :=
  itemOver_limits h (innerItem?_limits h hle) hle

end

end LessSyntax.Grammar

namespace LessSyntax

open Grammar Rule

variable {α β : Type} {s s' : Settings} {source : Source} {nest : α → Nat} {nest' : β → Nat}

/-! ## Whole sources -/

/-- The report names the limit, and stands where one block or one call too many opens. -/
def Source.ReportsLimit (source : Source) (limit : Nat) (e : Diagnostic) : Prop :=
  ∃ offset : Nat, e.offset = offset ∧
    (e.rule = some "block" ∧ e.expected = some ("at most " ++ toString limit ++ " nested blocks") ∧
        source.chars[offset]? = some '{' ∨
      e.rule = some "function" ∧
        e.expected = some ("at most " ++ toString limit ++ " nested calls") ∧
        source.chars[offset]? = some '(')

/-- The answers under a limit and under one that is no smaller. What is read under the second one
is read under the first one too, or is nested too deep and reported. -/
def LimitedAnswer (s : Settings) (source : Source) (nest : α → Nat)
    (small large : Except Diagnostic α) : Prop :=
  ∀ v, large = .ok v → nest v ≤ s.maxDepth ∧ small = .ok v ∨
    s.maxDepth < nest v ∧ ∃ e, small = .error e ∧ source.ReportsLimit s.maxDepth e

theorem Cursor.getElem?_text {c : Cursor} {x : Char} {k : List Char} (hpos : 0 ≤ c.pos)
    (hahead : c.ahead = x :: k) : c.text[c.pos.toNat]? = some x := by
  rw [c.ahead_eq, fromStart_of_nonneg hpos] at hahead
  rw [← List.head?_drop, hahead]
  rfl

theorem depthLabel_blocks (s : Settings) :
    depthLabel s "blocks" = "at most " ++ toString s.maxDepth ++ " nested blocks" := by
  rw [depthLabel, String.append_assoc]
  rfl

theorem depthLabel_calls (s : Settings) :
    depthLabel s "calls" = "at most " ++ toString s.maxDepth ++ " nested calls" := by
  rw [depthLabel, String.append_assoc]
  rfl

theorem AtLimit.reports {place : Cursor} {expected rule : String}
    (h : AtLimit s source.chars place expected rule) :
    source.ReportsLimit s.maxDepth (source.report place expected (some rule)) := by
  cases h with
  | block htext hpos hahead =>
    rw [depthLabel_blocks]
    exact ⟨place.pos.toNat, (Int.toNat_of_nonneg hpos).symm,
      .inl ⟨rfl, rfl, htext ▸ place.getElem?_text hpos hahead⟩⟩
  | call htext hpos hahead =>
    rw [depthLabel_calls]
    exact ⟨place.pos.toNat, (Int.toNat_of_nonneg hpos).symm,
      .inr ⟨rfl, rfl, htext ▸ place.getElem?_text hpos hahead⟩⟩

/-- The answers under a limit and under one that is no smaller, with all that a report says. They
are the same, and what is read is nested within the first limit; or the first answer reports that
limit, and what is read under the second one is nested too deep. -/
inductive SameUpToLimit (s : Settings) (source : Source) (nest : α → Nat) :
    Except Diagnostic α → Except Diagnostic α → Prop
  | same {answer : Except Diagnostic α} (hnest : ∀ v, answer = .ok v → nest v ≤ s.maxDepth) :
    SameUpToLimit s source nest answer answer
  | atLimit {e : Diagnostic} {large : Except Diagnostic α}
    (hlimit : source.ReportsLimit s.maxDepth e)
    (hdeep : ∀ v, large = .ok v → s.maxDepth < nest v) :
    SameUpToLimit s source nest (.error e) large

/-- Two runs over a whole source, from two runs of the rule at its start. -/
theorem parse_sameUpToLimit {small large : Rule α} {expected : String}
    (h : s'.lineComments = s.lineComments)
    (hstart : Limited s nest s.maxDepth (Cursor.ofText source.chars)
      (small (Cursor.ofText source.chars)) (large (Cursor.ofText source.chars))) :
    SameUpToLimit s source nest (parse s small source expected)
      (parse s' large source expected) := by
  have hmatched : ∀ v, parse s' large source expected = .ok v →
      ∃ rest, large (Cursor.ofText source.chars) = .matched v rest := by
    intro v hread
    obtain ⟨rest, -, hlarge, -⟩ := parse_matched hread
    exact ⟨rest, hlarge⟩
  obtain ⟨hsame, hnest⟩ | ⟨place, label, rule, hsmall, hlimit, hdeep⟩ := hstart.same_or_atLimit
  · have hanswer : parse s small source expected = parse s' large source expected := by
      unfold parse whole terminated map both
      rw [hsame, token_congr h]
    rw [hanswer]
    refine .same fun v hread => ?_
    obtain ⟨rest, hlarge⟩ := hmatched v hread
    exact hnest v rest hlarge
  · have hanswer : parse s small source expected =
        .error (source.report place label (some rule)) := by
      unfold parse whole terminated map both
      rw [hsmall]
      rfl
    rw [hanswer]
    refine .atLimit (AtLimit.reports hlimit) fun v hread => ?_
    obtain ⟨rest, hlarge⟩ := hmatched v hread
    exact hdeep v rest hlarge

theorem SameUpToLimit.map {f : α → β} {small large : Except Diagnostic α}
    (h : SameUpToLimit s source (fun a => nest' (f a)) small large) :
    SameUpToLimit s source nest' (small.map f) (large.map f) := by
  cases h with
  | same hnest =>
    refine .same fun w hw => ?_
    cases small with
    | error e => cases hw
    | ok v =>
      cases hw
      exact hnest v rfl
  | atLimit hlimit hdeep =>
    refine .atLimit hlimit fun w hw => ?_
    cases large with
    | error e => cases hw
    | ok v =>
      cases hw
      exact hdeep v rfl

theorem SameUpToLimit.limitedAnswer {small large : Except Diagnostic α}
    (h : SameUpToLimit s source nest small large) : LimitedAnswer s source nest small large := by
  intro v hread
  cases h with
  | same hnest => exact .inl ⟨hnest v hread, hread⟩
  | atLimit hlimit hdeep => exact .inr ⟨hdeep v hread, _, rfl, hlimit⟩

theorem atLevel_limited {small large : Nat → Rule α}
    (h : Limits s nest s.maxDepth (small s.maxDepth) (large s'.maxDepth)) (text : List Char) :
    Limited s nest s.maxDepth (Cursor.ofText text) (atLevel s small (Cursor.ofText text))
      (atLevel s' large (Cursor.ofText text)) := by
  rw [atLevel_ofText, atLevel_ofText]
  exact h _ (Cursor.within_ofText text)

theorem Entry.parse_sameUpToLimit (entry : Entry) (h : s'.lineComments = s.lineComments)
    (hle : s.maxDepth ≤ s'.maxDepth) :
    SameUpToLimit s source Tree.nesting (entry.parse s source) (entry.parse s' source) := by
  cases entry with
  | stylesheet =>
    have hitems : Limited s Item.nestingAll s.maxDepth (Cursor.ofText source.chars)
        (items s (Cursor.ofText source.chars)) (items s' (Cursor.ofText source.chars)) :=
      atLevel_limited (limits_many rfl (fun _ _ => rfl) (itemAt_limits h hle)) source.chars
    exact .map (LessSyntax.parse_sameUpToLimit h
      (hitems.map (fun _ hnest => hnest) fun _ hnest => hnest))
  | item => exact .map (LessSyntax.parse_sameUpToLimit h (atLevel_limited (itemAt_limits h hle) _))
  | declaration =>
    exact .map (LessSyntax.parse_sameUpToLimit h (atLevel_limited (declarationAt_limits h hle) _))
  | value =>
    exact .map (LessSyntax.parse_sameUpToLimit h (atLevel_limited (valueAt_limits h hle) _))
  | selectorGroup =>
    refine .map (LessSyntax.parse_sameUpToLimit h ?_)
    rw [selectorGroup_congr h]
    exact limits_free (ensures_mono selectorGroup_ensures fun _ _ _ _ _ _ => rfl) _
      (Cursor.within_ofText source.chars)

theorem Entry.parse_limited (entry : Entry) (h : s'.lineComments = s.lineComments)
    (hle : s.maxDepth ≤ s'.maxDepth) :
    LimitedAnswer s source Tree.nesting (entry.parse s source) (entry.parse s' source) :=
  (entry.parse_sameUpToLimit h hle).limitedAnswer

/-- The limit is exact. -/
theorem Entry.parse_limit (entry : Entry) (source : Source) (lineComments : Bool) {d d' : Nat}
    (hle : d ≤ d') {t : Tree} (h : entry.parse ⟨d', lineComments⟩ source = .ok t) :
    t.nesting ≤ d' ∧
      ((∃ u, entry.parse ⟨d, lineComments⟩ source = .ok u) ↔ t.nesting ≤ d) ∧
      (t.nesting ≤ d → entry.parse ⟨d, lineComments⟩ source = .ok t) ∧
      (d < t.nesting → ∃ e, entry.parse ⟨d, lineComments⟩ source = .error e ∧
        source.ReportsLimit d e) := by
  have hlimited : ∀ {limit : Nat}, limit ≤ d' →
      LimitedAnswer ⟨limit, lineComments⟩ source Tree.nesting
        (entry.parse ⟨limit, lineComments⟩ source) (entry.parse ⟨d', lineComments⟩ source) :=
    fun hle => entry.parse_limited rfl hle
  have hnest : t.nesting ≤ d' := by
    obtain ⟨hnest, -⟩ | ⟨-, e, herror, -⟩ := hlimited (Nat.le_refl d') t h
    · exact hnest
    · rw [h] at herror
      cases herror
  refine ⟨hnest, ?_⟩
  obtain ⟨hwithin, hread⟩ | ⟨hdeep, e, hread, he⟩ := hlimited hle t h
  · exact ⟨⟨fun _ => hwithin, fun _ => ⟨t, hread⟩⟩, fun _ => hread,
      fun hdeep => absurd hwithin (Nat.not_le_of_lt hdeep)⟩
  · refine ⟨⟨?_, fun hwithin => absurd hwithin (Nat.not_le_of_lt hdeep)⟩,
      fun hwithin => absurd hwithin (Nat.not_le_of_lt hdeep), fun _ => ⟨e, hread, he⟩⟩
    rintro ⟨u, hu⟩
    rw [hread] at hu
    cases hu

/-- A call in a block is too deep where only one of them may be open. -/
theorem stylesheet_limit_one :
    ∃ t e,
      Entry.stylesheet.parse ⟨2, true⟩ ⟨['a', '{', 'b', ':', 'f', '(', ')', '}'], none⟩ = .ok t ∧
      t.nesting = 2 ∧
      Entry.stylesheet.parse ⟨1, true⟩ ⟨['a', '{', 'b', ':', 'f', '(', ')', '}'], none⟩ = .error e ∧
      Source.ReportsLimit ⟨['a', '{', 'b', ':', 'f', '(', ')', '}'], none⟩ 1 e := by
  obtain ⟨t, hread, hnest⟩ : ∃ t, Entry.stylesheet.parse ⟨2, true⟩
      ⟨['a', '{', 'b', ':', 'f', '(', ')', '}'], none⟩ = .ok t ∧ t.nesting = 2 :=
    ⟨_, rfl, rfl⟩
  obtain ⟨e, herror, he⟩ := (Entry.stylesheet.parse_limit _ true (by decide) hread).2.2.2
    (show 1 < t.nesting by omega)
  exact ⟨t, e, hread, hnest, herror, he⟩

/-- The report names the limit on blocks or the one on calls. -/
def Diagnostic.NamesLimit (limit : Nat) (e : Diagnostic) : Prop :=
  e.expected = some ("at most " ++ toString limit ++ " nested blocks") ∨
    e.expected = some ("at most " ++ toString limit ++ " nested calls")

theorem Source.ReportsLimit.namesLimit {limit : Nat} {e : Diagnostic}
    (h : source.ReportsLimit limit e) : e.NamesLimit limit := by
  obtain ⟨offset, -, ⟨-, hexpected, -⟩ | ⟨-, hexpected, -⟩⟩ := h
  · exact .inl hexpected
  · exact .inr hexpected

/-- A higher limit takes nothing away but the reports of the limit: any other answer stays what it
is, be it a tree with its places or a report with all that it says. -/
theorem Entry.parse_raised (entry : Entry) (source : Source) (lineComments : Bool) {d d' : Nat}
    (hle : d ≤ d')
    (h : ∀ e, entry.parse ⟨d, lineComments⟩ source = .error e → ¬ e.NamesLimit d) :
    entry.parse ⟨d', lineComments⟩ source = entry.parse ⟨d, lineComments⟩ source := by
  have hsame : SameUpToLimit ⟨d, lineComments⟩ source Tree.nesting
      (entry.parse ⟨d, lineComments⟩ source) (entry.parse ⟨d', lineComments⟩ source) :=
    entry.parse_sameUpToLimit rfl hle
  generalize entry.parse ⟨d', lineComments⟩ source = large at hsame ⊢
  generalize entry.parse ⟨d, lineComments⟩ source = small at hsame h ⊢
  cases hsame with
  | same _ => rfl
  | atLimit hlimit _ => exact absurd hlimit.namesLimit (h _ rfl)

/-- A value is missing in a block, and still is where more blocks may be open. -/
theorem stylesheet_raised :
    ∃ e, Entry.stylesheet.parse ⟨1, true⟩ ⟨['a', '{', 'b', ':', '}'], none⟩ = .error e ∧
      ¬ e.NamesLimit 1 ∧
      Entry.stylesheet.parse ⟨3, true⟩ ⟨['a', '{', 'b', ':', '}'], none⟩ = .error e := by
  obtain ⟨e, hread, hexpected⟩ : ∃ e, Entry.stylesheet.parse ⟨1, true⟩
      ⟨['a', '{', 'b', ':', '}'], none⟩ = .error e ∧ e.expected = some "value" :=
    ⟨_, rfl, rfl⟩
  have hother : ¬ e.NamesLimit 1 := by
    rw [Diagnostic.NamesLimit, hexpected]
    decide
  have hnone : ∀ e',
      Entry.stylesheet.parse ⟨1, true⟩ ⟨['a', '{', 'b', ':', '}'], none⟩ = .error e' →
        ¬ e'.NamesLimit 1 := by
    intro e' he'
    rw [hread] at he'
    cases he'
    exact hother
  have hraised := Entry.stylesheet.parse_raised ⟨['a', '{', 'b', ':', '}'], none⟩ true
    (show 1 ≤ 3 by decide) hnone
  exact ⟨e, hread, hother, hraised.trans hread⟩

end LessSyntax
