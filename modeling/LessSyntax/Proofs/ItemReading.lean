import LessSyntax.Grammar.Item
import LessSyntax.Proofs.ValueReading

/-!
# What is read as an item

The relations say for each kind of item which characters it is read from. Like those for values
they are stated over any postcondition `P` for the items of blocks, and over one for values: if
what is read as an item has the postcondition again, so have the items of blocks at every level
(`innerItem?_ensures`).

* `ReadsSelector`, `ReadsPath`, `ReadsBlock`, `ReadsItem`: the characters that these are read from.
* `itemAt_ensures`: every item is read like this.
-/

namespace LessSyntax.Grammar

open Rule

variable {s : Settings} {lineComments : Bool} {levels : Nat} {inner? : Option (Rule Item)}
  {V : Cursor → Value → Cursor → Prop} {P : Cursor → Item → Cursor → Prop}

/-! ## Selectors -/

/-- A selector is read as its mark, if it has one, and its name. -/
inductive ReadsSelector (c : Cursor) : Selector → Cursor → Prop
  | byId {start rest : Cursor} {cs : List Char} (hmark : c.Reads ['#'] start)
    (hname : start.Reads cs rest) (his : IsName cs) :
    ReadsSelector c ⟨.byId, start.next cs.length⟩ rest
  | byClass {start rest : Cursor} {cs : List Char} (hmark : c.Reads ['.'] start)
    (hname : start.Reads cs rest) (his : IsName cs) :
    ReadsSelector c ⟨.byClass, start.next cs.length⟩ rest
  | byType {rest : Cursor} {cs : List Char} (hname : c.Reads cs rest) (his : IsName cs) :
    ReadsSelector c ⟨.byType, c.next cs.length⟩ rest
  | universal {rest : Cursor} (hmark : c.Reads ['*'] rest) :
    ReadsSelector c ⟨.universal, c.next (['*'] : List Char).length⟩ rest

theorem idSelector_ensures : idSelector.Ensures ReadsSelector :=
  ensures_map (nameAfter_ensures fun _ _ _ _ hmark hname his => .byId hmark hname his)

theorem classSelector_ensures : classSelector.Ensures ReadsSelector :=
  ensures_map (nameAfter_ensures fun _ _ _ _ hmark hname his => .byClass hmark hname his)

theorem simpleSelector_ensures :
    (simpleSelector s).Ensures (ReadsToken s.lineComments ReadsSelector) := by
  refine token_ensures (ensures_choice fun r hr => ?_)
  simp only [List.mem_cons, List.not_mem_nil, or_false] at hr
  rcases hr with rfl | rfl | rfl | rfl
  · exact idSelector_ensures
  · exact classSelector_ensures
  · exact ensures_map (name_ensures fun _ _ _ _ hname his => .byType hname his)
  · exact ensures_map (ensures_literal (by simp) fun _ _ _ hmark => .universal hmark)

theorem mixinStep_ensures : mixinStep.Ensures ReadsSelector := by
  refine ensures_choice fun r hr => ?_
  simp only [List.mem_cons, List.not_mem_nil, or_false] at hr
  rcases hr with rfl | rfl
  · exact classSelector_ensures
  · exact idSelector_ensures

/-- Selectors are read one after the other, each behind a joint of some kind. -/
def ReadsSelectors (lineComments : Bool) (joint : Cursor → Cursor → Prop) (c : Cursor)
    (selectors : OneOrMore Selector) (rest : Cursor) : Prop :=
  ∃ mid, ReadsToken lineComments ReadsSelector c selectors.first mid ∧
    ReadsAll (fun c a rest =>
        ∃ next, joint c next ∧ ReadsToken lineComments ReadsSelector next a rest)
      mid selectors.others rest

def ReadsGroup (lineComments : Bool) : Cursor → SelectorGroup → Cursor → Prop :=
  ReadsSelectors lineComments (ReadsSymbol lineComments [','])

/-- Between the steps of a path `>` may be left out. -/
def ReadsPath (lineComments : Bool) : Cursor → MixinPath → Cursor → Prop :=
  ReadsSelectors lineComments fun c next => next = c ∨ ReadsSymbol lineComments ['>'] c next

theorem selectorGroup_ensures : (selectorGroup s).Ensures (ReadsGroup s.lineComments) :=
  separated1_ensures (by simp) simpleSelector_ensures

theorem mixinPath_ensures : (mixinPath s).Ensures (ReadsPath s.lineComments) := by
  have hjoint : (opt (symbol s ['>'])).Ensures fun c _ next =>
      next = c ∨ ReadsSymbol s.lineComments ['>'] c next :=
    ensures_opt (ensures_mono (symbol_ensures (by simp)) fun _ _ _ _ _ h => Or.inr h)
      fun _ => Or.inl rfl
  have hstep : (mixinJoint s).Ensures fun c a rest => ∃ next,
      (next = c ∨ ReadsSymbol s.lineComments ['>'] c next) ∧
        ReadsToken s.lineComments ReadsSelector next a rest :=
    ensures_preceded hjoint (token_ensures mixinStep_ensures)
      fun _ _ next _ _ _ _ hmark hread => ⟨next, hmark, hread⟩
  refine ensures_map (ensures_both (token_ensures mixinStep_ensures) (many_ensures hstep) ?_)
  exact fun c a mid b rest _ _ hfirst hothers => ⟨mid, hfirst, hothers⟩

/-- The name of a mixin is a path of one step. -/
theorem mixinName_ensures : (token s mixinName).Ensures (ReadsPath s.lineComments) := by
  have hname : mixinName.Ensures fun c path rest =>
      ReadsSelector c path.first rest ∧ path.others = [] :=
    ensures_map (ensures_mono mixinStep_ensures fun _ _ _ _ _ hread => ⟨hread, rfl⟩)
  apply ensures_mono (token_ensures hname)
  rintro c ⟨first, others⟩ rest - - ⟨mid, hskip, hmid, hread, hothers⟩
  obtain rfl : others = [] := hothers
  exact ⟨rest, ⟨mid, hskip, hmid, hread⟩, .nil⟩

/-! ## Endings -/

/-- What ends an item: a semicolon, or trivia. -/
def ReadsEnd (lineComments : Bool) (c rest : Cursor) : Prop :=
  SkipsRun lineComments c rest ∨ ReadsSymbol lineComments [';'] c rest

theorem endOf_ensures (expected : String) :
    (endOf expected).Ensures fun c _ rest => rest = c := by
  intro c v rest _ h
  unfold endOf at h
  split at h
  · cases h
    exact ⟨.refl c, rfl⟩
  · cases h

theorem terminator_ensures :
    (terminator s).Ensures fun c _ rest => ReadsEnd s.lineComments c rest := by
  refine ensures_choice fun r hr => ?_
  simp only [List.mem_cons, List.not_mem_nil, or_false] at hr
  rcases hr with rfl | rfl | rfl
  · exact ensures_map (ensures_mono (symbol_ensures (by simp)) fun _ _ _ _ _ h => Or.inr h)
  · exact ensures_map (ensures_peek fun c _ => Or.inl (skipsRun_refl c))
  · refine ensures_map (ensures_mono (token_ensures (endOf_ensures _)) ?_)
    rintro c _ rest - - ⟨mid, hskip, -, rfl⟩
    exact Or.inl hskip

theorem variableEnd_ensures (v : Value) :
    (variableEnd s v).Ensures fun c _ rest => ReadsEnd s.lineComments c rest := by
  unfold variableEnd
  split
  · exact ensures_opt (ensures_mono (symbol_ensures (by simp)) fun _ _ _ _ _ h => Or.inr h)
      fun c => Or.inl (skipsRun_refl c)
  · exact terminator_ensures

/-- The mark of an important value is an exclamation mark and a word. -/
inductive ReadsImportant (lineComments : Bool) (c : Cursor) : Bool → Cursor → Prop
  | absent : ReadsImportant lineComments c false c
  | present {mid start rest : Cursor} {word : List Char}
    (hmark : ReadsSymbol lineComments ['!'] c mid) (hskip : SkipsRun lineComments mid start)
    (hword : start.Reads word rest) (his : isLowered importantWord word = true) :
    ReadsImportant lineComments c true rest

theorem important_ensures :
    (important s).Ensures (ReadsImportant s.lineComments) := by
  intro c v rest hc h
  obtain ⟨mark, mid, hmark, hnext⟩ := Outcome.bind_matched.mp h
  rcases opt_matched hmark with ⟨t, rfl, hsymbol⟩ | ⟨rfl, rfl, -⟩
  · obtain ⟨hreach, hmark⟩ := symbol_ensures (by simp) c t mid hc hsymbol
    obtain ⟨_, start, htrivia, hnext⟩ := Outcome.bind_matched.mp hnext
    have hmid := hreach.within hc
    obtain ⟨hreach', hskip⟩ := trivia_ensures mid _ start hmid htrivia
    have hstart := hreach'.within hmid
    split at hnext
    · rename_i word stop hname
      obtain ⟨cs, hword, -, rfl⟩ := name_matched hstart hname
      rw [hword.chars_next hstart] at hnext
      split at hnext
      · rename_i hlowered
        cases hnext
        exact ⟨(hreach.trans hreach').trans ⟨cs, hword⟩, .present hmark hskip hword hlowered⟩
      · cases hnext
    · cases hnext
  · cases hnext
    exact ⟨.refl _, .absent⟩

/-- The parentheses of a mixin and of a call. -/
def ReadsParens (lineComments : Bool) (c rest : Cursor) : Prop :=
  ∃ mid, ReadsSymbol lineComments ['('] c mid ∧ ReadsSymbol lineComments [')'] mid rest

theorem emptyParens_ensures :
    (emptyParens s).Ensures fun c _ rest => ReadsParens s.lineComments c rest :=
  ensures_both (symbol_ensures (by simp)) (symbol_ensures (by simp))
    fun _ _ mid _ _ _ _ hopen hclose => ⟨mid, hopen, hclose⟩

theorem closeBlock_ensures :
    (closeBlock s).Ensures fun c _ rest => ReadsSymbol s.lineComments ['}'] c rest := by
  refine ensures_choice fun r hr => ?_
  simp only [List.mem_cons, List.not_mem_nil, or_false] at hr
  subst hr
  exact symbol_ensures (by simp)

/-! ## Blocks -/

/-- A block is read as its braces and the items between them, one level deeper. -/
inductive ReadsBlock (lineComments : Bool) (P : Cursor → Item → Cursor → Prop) (c : Cursor) :
    List Item → Cursor → Prop
  | intro {opened stop closed : Cursor} {items : List Item}
    (hopen : ReadsSymbol lineComments ['{'] c opened) (hitems : ReadsAll P opened.nested items stop)
    (hclose : ReadsSymbol lineComments ['}'] stop closed) :
    ReadsBlock lineComments P c items (closed.withDepth c.depth)

theorem blockOver_ensures (hinner : ∀ inner ∈ inner?, Ensures inner P) :
    (blockOver s inner?).Ensures (ReadsBlock s.lineComments P) := by
  intro c v rest hc h
  obtain ⟨_, opened, hsymbol, hnext⟩ := Outcome.bind_matched.mp h
  obtain ⟨hreach, hopen⟩ := symbol_ensures (by simp) c _ opened hc hsymbol
  have hopened := hreach.within hc
  split at hnext
  · cases hnext
  · obtain ⟨items, closed, hinside, hnext⟩ := Outcome.bind_matched.mp hnext
    cases hnext
    have hrule : (cut (terminated (many _) (closeBlock s)) "block").Ensures fun c items rest =>
        ∃ stop, ReadsAll P c items stop ∧ ReadsSymbol s.lineComments ['}'] stop rest :=
      ensures_cut (ensures_terminated (many_ensures (hinner _ rfl)) closeBlock_ensures
        fun c _ stop _ _ _ _ hitems hclose => ⟨stop, hitems, hclose⟩)
    obtain ⟨hreach', stop, hitems, hclose⟩ := hrule _ v closed hopened.nested hinside
    refine ⟨?_, .intro hopen hitems hclose⟩
    have hreach' := hreach'.of_nested
    rw [hreach.depth] at hreach'
    exact hreach.trans hreach'

/-- The value of a variable is a block, or it is read as a value. -/
def ReadsVariableValue (lineComments : Bool) (V : Cursor → Value → Cursor → Prop)
    (P : Cursor → Item → Cursor → Prop) (c : Cursor) (v : Value) (rest : Cursor) : Prop :=
  (∃ items, v = .ruleset items ∧ ReadsBlock lineComments P c items rest) ∨ V c v rest

theorem variableValueOver_ensures (hinner : ∀ inner ∈ inner?, Ensures inner P)
    (hvalue : (valueAt s levels).Ensures V) :
    (variableValueOver s levels inner?).Ensures (ReadsVariableValue s.lineComments V P) := by
  refine ensures_choice fun r hr => ?_
  simp only [List.mem_cons, List.not_mem_nil, or_false] at hr
  rcases hr with rfl | rfl
  · refine ensures_map (ensures_mono (blockOver_ensures hinner) ?_)
    exact fun c items rest _ _ hblock => Or.inl ⟨items, rfl, hblock⟩
  · exact ensures_mono hvalue fun _ _ _ _ _ hread => Or.inr hread

/-! ## Items -/

def ReadsName (c : Cursor) (t : Text) (rest : Cursor) : Prop :=
  ∃ cs, c.Reads cs rest ∧ IsName cs ∧ t = c.next cs.length

def ReadsAtName (c : Cursor) (t : Text) (rest : Cursor) : Prop :=
  ∃ start, c.Reads ['@'] start ∧ ReadsName start t rest

theorem name_reads : name.Ensures ReadsName :=
  name_ensures fun _ cs _ _ hname his => ⟨cs, hname, his, rfl⟩

theorem atName_reads : atName.Ensures ReadsAtName :=
  atName_ensures fun _ cs _ _ hmark hname his => ⟨_, hmark, cs, hname, his, rfl⟩

/-- An item is read in one of six ways. -/
inductive ReadsItem (lineComments : Bool) (V : Cursor → Value → Cursor → Prop)
    (P : Cursor → Item → Cursor → Prop) (c : Cursor) : Item → Cursor → Prop
  | ofDeclaration {named colon valued ended rest : Cursor} {t : Text} {v : Value} {mark : Bool}
    (hname : ReadsToken lineComments ReadsName c t named)
    (hcolon : ReadsSymbol lineComments [':'] named colon) (hvalue : V colon v valued)
    (hmark : ReadsImportant lineComments valued mark ended)
    (hend : ReadsEnd lineComments ended rest) :
    ReadsItem lineComments V P c (.declaration t v mark) rest
  | ofRule {opened rest : Cursor} {group : SelectorGroup} {items : List Item}
    (hgroup : ReadsGroup lineComments c group opened)
    (hblock : ReadsBlock lineComments P opened items rest) :
    ReadsItem lineComments V P c (.rule group items) rest
  | ofMixin {named opened rest : Cursor} {path : MixinPath} {items : List Item}
    (hpath : ReadsPath lineComments c path named)
    (hparens : ReadsParens lineComments named opened)
    (hblock : ReadsBlock lineComments P opened items rest) :
    ReadsItem lineComments V P c (.mixin path items) rest
  | ofMixinCall {named ended rest : Cursor} {path : MixinPath}
    (hpath : ReadsPath lineComments c path named) (hparens : ReadsParens lineComments named ended)
    (hend : ReadsEnd lineComments ended rest) :
    ReadsItem lineComments V P c (.mixinCall path) rest
  | ofVariable {named colon valued rest : Cursor} {t : Text} {v : Value}
    (hname : ReadsToken lineComments ReadsAtName c t named)
    (hcolon : ReadsSymbol lineComments [':'] named colon)
    (hvalue : ReadsVariableValue lineComments V P colon v valued)
    (hend : ReadsEnd lineComments valued rest) :
    ReadsItem lineComments V P c (.variable t v) rest
  | ofVariableCall {named ended rest : Cursor} {t : Text}
    (hname : ReadsToken lineComments ReadsAtName c t named)
    (hparens : ReadsParens lineComments named ended) (hend : ReadsEnd lineComments ended rest) :
    ReadsItem lineComments V P c (.variableCall t) rest

section

variable (hinner : ∀ inner ∈ inner?, Ensures inner P) (hvalue : (valueAt s levels).Ensures V)

include hvalue in
theorem declarationAt_ensures :
    (declarationAt s levels).Ensures (ReadsItem s.lineComments V P) := by
  have hnamed : (terminated (token s name) (symbol s [':'])).Ensures fun c t rest =>
      ∃ named, ReadsToken s.lineComments ReadsName c t named ∧
        ReadsSymbol s.lineComments [':'] named rest :=
    ensures_terminated (token_ensures name_reads) (symbol_ensures (by simp))
      fun _ _ named _ _ _ _ hname hcolon => ⟨named, hname, hcolon⟩
  have hmarked : (terminated (important s) (terminator s)).Ensures fun c mark rest =>
      ∃ ended, ReadsImportant s.lineComments c mark ended ∧ ReadsEnd s.lineComments ended rest :=
    ensures_terminated important_ensures terminator_ensures
      fun _ _ ended _ _ _ _ hmark hend => ⟨ended, hmark, hend⟩
  have hrest : (both (valueAt s levels) (terminated (important s) (terminator s))).Ensures
      fun c found rest => ∃ valued ended, V c found.1 valued ∧
        ReadsImportant s.lineComments valued found.2 ended ∧
        ReadsEnd s.lineComments ended rest := by
    apply ensures_both hvalue hmarked
    rintro c v valued mark rest - - hv ⟨ended, hmark, hend⟩
    exact ⟨valued, ended, hv, hmark, hend⟩
  refine ensures_bind (Q := fun t c x rest => ∃ v mark valued ended, x = .declaration t v mark ∧
    V c v valued ∧ ReadsImportant s.lineComments valued mark ended ∧
      ReadsEnd s.lineComments ended rest) hnamed (fun t => ensures_map (ensures_mono
    (ensures_cut hrest) ?_)) ?_
  · rintro c found rest - - ⟨valued, ended, hv, hmark, hend⟩
    exact ⟨found.1, found.2, valued, ended, rfl, hv, hmark, hend⟩
  · rintro c t colon x rest - - ⟨named, hname, hcolon⟩
      ⟨v, mark, valued, ended, rfl, hv, hmark, hend⟩
    exact .ofDeclaration hname hcolon hv hmark hend

theorem mixinCall_ensures : (mixinCall s).Ensures (ReadsItem s.lineComments V P) := by
  have hnamed : (terminated (mixinPath s) (emptyParens s)).Ensures fun c path rest =>
      ∃ named, ReadsPath s.lineComments c path named ∧ ReadsParens s.lineComments named rest :=
    ensures_terminated mixinPath_ensures emptyParens_ensures
      fun _ _ named _ _ _ _ hpath hparens => ⟨named, hpath, hparens⟩
  refine ensures_map (ensures_terminated hnamed (ensures_cut terminator_ensures) ?_)
  rintro c path ended _ rest - - ⟨named, hpath, hparens⟩ hend
  exact .ofMixinCall hpath hparens hend

theorem variableCall_ensures : (variableCall s).Ensures (ReadsItem s.lineComments V P) := by
  have hnamed : (terminated (token s atName) (emptyParens s)).Ensures fun c t rest =>
      ∃ named, ReadsToken s.lineComments ReadsAtName c t named ∧
        ReadsParens s.lineComments named rest :=
    ensures_terminated (token_ensures atName_reads) emptyParens_ensures
      fun _ _ named _ _ _ _ hname hparens => ⟨named, hname, hparens⟩
  refine ensures_map (ensures_terminated hnamed (ensures_cut terminator_ensures) ?_)
  rintro c t ended _ rest - - ⟨named, hname, hparens⟩ hend
  exact .ofVariableCall hname hparens hend

include hinner

theorem qualifiedRuleOver_ensures :
    (qualifiedRuleOver s inner?).Ensures (ReadsItem s.lineComments V P) :=
  ensures_map (ensures_both selectorGroup_ensures (blockOver_ensures hinner)
    fun _ _ _ _ _ _ _ hgroup hblock => .ofRule hgroup hblock)

theorem mixinDeclarationOver_ensures :
    (mixinDeclarationOver s inner?).Ensures (ReadsItem s.lineComments V P) := by
  have hnamed : (terminated (token s mixinName) (emptyParens s)).Ensures fun c path rest =>
      ∃ named, ReadsPath s.lineComments c path named ∧ ReadsParens s.lineComments named rest :=
    ensures_terminated mixinName_ensures emptyParens_ensures
      fun _ _ named _ _ _ _ hpath hparens => ⟨named, hpath, hparens⟩
  refine ensures_map (ensures_both hnamed (blockOver_ensures hinner) ?_)
  rintro c path opened block rest - - ⟨named, hpath, hparens⟩ hblock
  exact .ofMixin hpath hparens hblock

include hvalue

theorem variableDeclarationOver_ensures :
    (variableDeclarationOver s levels inner?).Ensures (ReadsItem s.lineComments V P) := by
  have hnamed : (terminated (token s atName) (symbol s [':'])).Ensures fun c t rest =>
      ∃ named, ReadsToken s.lineComments ReadsAtName c t named ∧
        ReadsSymbol s.lineComments [':'] named rest :=
    ensures_terminated (token_ensures atName_reads) (symbol_ensures (by simp))
      fun _ _ named _ _ _ _ hname hcolon => ⟨named, hname, hcolon⟩
  refine ensures_bind (Q := fun t c x rest => ∃ v valued, x = .variable t v ∧
    ReadsVariableValue s.lineComments V P c v valued ∧ ReadsEnd s.lineComments valued rest)
    hnamed (fun t => ensures_bind (Q := fun v c x rest => x = .variable t v ∧
      ReadsEnd s.lineComments c rest) (ensures_cut (variableValueOver_ensures hinner hvalue))
      (fun v => ensures_map (ensures_mono (ensures_cut (variableEnd_ensures v)) ?_)) ?_) ?_
  · exact fun _ _ _ _ _ hend => ⟨rfl, hend⟩
  · rintro c v valued x rest - - hv ⟨rfl, hend⟩
    exact ⟨v, valued, rfl, hv, hend⟩
  · rintro c t colon x rest - - ⟨named, hname, hcolon⟩ ⟨v, valued, rfl, hv, hend⟩
    exact .ofVariable hname hcolon hv hend

theorem itemOver_ensures : (itemOver s levels inner?).Ensures (ReadsItem s.lineComments V P) := by
  refine ensures_choice fun r hr => ?_
  simp only [List.mem_cons, List.not_mem_nil, or_false] at hr
  rcases hr with rfl | rfl | rfl | rfl | rfl | rfl
  · exact mixinDeclarationOver_ensures hinner
  · exact declarationAt_ensures hvalue
  · exact mixinCall_ensures
  · exact qualifiedRuleOver_ensures hinner
  · exact variableDeclarationOver_ensures hinner hvalue
  · exact variableCall_ensures

end

/-! ## All levels -/

section

variable (hvalue : ∀ levels, (valueAt s levels).Ensures V)
  (hstep : ∀ c x rest, c.Within → c.Reaches rest → ReadsItem s.lineComments V P c x rest →
    P c x rest)
include hvalue hstep

/-- A postcondition that items hand on holds of the items of blocks at every level. -/
theorem innerItem?_ensures (levels : Nat) : ∀ inner ∈ innerItem? s levels, Ensures inner P := by
  induction levels with
  | zero =>
    intro inner h
    cases h
  | succ levels ih =>
    intro inner h
    cases h
    exact ensures_mono (itemOver_ensures ih (hvalue levels)) hstep

theorem itemAt_ensures (levels : Nat) : (itemAt s levels).Ensures P :=
  ensures_mono (itemOver_ensures (innerItem?_ensures hvalue hstep levels) (hvalue levels)) hstep

end

end LessSyntax.Grammar
