import LessSyntax.Proofs.ItemReading
import LessSyntax.Proofs.WholeSource
import LessSyntax.Proofs.ValueEdges
import LessSyntax.Proofs.WovenSelector

/-!
# Trees in normal form

The types of trees leave open what a source can be read as. A list of one element would be that
element, a list inside another one binds tighter, blocks stand nowhere but right behind the colon
of a variable, and names are names. A call that could be taken for an address has a string first.
Trees for which all of this holds are in normal form.

Values that are read are known as values that can be written, and those are in normal form. For
items the condition is one that a kind of item hands on from the items of its blocks.

* `Value.Normal`, `Item.Normal`, `Tree.Normal`: the trees in normal form.
* `Value.Written.normal`: values that can be written.
* `itemAt_normal`: items that are read.
* `Entry.parse_normal`: a source is read as a tree in normal form, or reported.
-/

namespace LessSyntax

open Grammar Rule

/-! ## Normal form -/

/-- What may stand in a list with the separator: no list that binds as loosely, and no block. -/
def Separator.MayHold : Separator → Value → Prop
  | outer, .list _ inner => inner.rank < outer.rank
  | _, .ruleset _ => False
  | _, _ => True

/-- A string is put together from its segments and interpolations. There is an interpolation, one
segment more than there are interpolations, and the names are names. -/
structure Value.Interpolates (v : Value) (quote : Quote) : Prop where
  ne_nil : v.interpolations ≠ []
  length_segments : v.segments.length = v.interpolations.length + 1
  ofSegments : Value.ofSegments v.segments v.interpolations quote = .ok v
  names : ∀ i ∈ v.interpolations, IsName i.name.chars

/-- The selectors of a rule. -/
structure SelectorGroup.Normal (group : SelectorGroup) : Prop where
  ne_nil : group.toList ≠ []
  ofSelectors : SelectorGroup.ofSelectors group.toList = .ok group
  selectors : ∀ selector ∈ group.toList, selector.Printable

/-- The path of a mixin. -/
structure MixinPath.Normal (path : MixinPath) : Prop where
  ne_nil : path.toList ≠ []
  ofSelectors : MixinPath.ofSelectors path.toList = .ok path
  steps : ∀ step ∈ path.toList, step.NamesMixin

namespace Value

mutual

/-- The value is a string, or a list that has one first. -/
def BeginsWithString : Value → Prop
  | .string _ _ => True
  | .interpolated _ _ _ => True
  | .list values _ => FirstBeginsWithString values
  | _ => False

def FirstBeginsWithString : List Value → Prop
  | [] => False
  | v :: _ => BeginsWithString v

end

end Value

mutual

/-- A value in normal form. Blocks are none; they have their place in `Value.EndNormal`. -/
def Value.Normal : Value → Prop
  | .interpolated first parts quote => Value.Interpolates (.interpolated first parts quote) quote
  | .identifier name => IsName name.chars
  | .variable name => IsName name.chars
  | .property name => IsName name.chars
  | .call name arguments =>
    IsName name.chars ∧ (∀ v ∈ arguments, Separator.comma.MayHold v) ∧
      (CallsUrl name.chars → Value.FirstBeginsWithString arguments) ∧ Value.AllNormal arguments
  | .list values separator =>
    2 ≤ values.length ∧ (∀ v ∈ values, separator.MayHold v) ∧ Value.AllNormal values
  | .ruleset _ => False
  | .string _ _ => True
  | .number _ _ => True
  | .color _ => True
  | .url _ => True

def Value.AllNormal : List Value → Prop
  | [] => True
  | v :: vs => Value.Normal v ∧ Value.AllNormal vs

end

mutual

def Item.Normal : Item → Prop
  | .declaration name value _ => IsName name.chars ∧ value.Normal
  | .rule selectors block => SelectorGroup.Normal selectors ∧ Item.AllNormal block
  | .mixin path block =>
    MixinPath.Normal path ∧ path.toList.length = 1 ∧ Item.AllNormal block
  | .mixinCall path => MixinPath.Normal path
  | .variable name value => IsName name.chars ∧ Value.EndNormal value
  | .variableCall name => IsName name.chars

/-- The value of a variable is a block of items in normal form or any other value in it. -/
def Value.EndNormal : Value → Prop
  | .ruleset block => Item.AllNormal block
  | value => value.Normal

def Item.AllNormal : List Item → Prop
  | [] => True
  | x :: xs => Item.Normal x ∧ Item.AllNormal xs

end

def Tree.Normal : Tree → Prop
  | .interpolation i => IsName i.name.chars
  | .value v => v.Normal
  | .selector found => found.Printable
  | .selectors group => SelectorGroup.Normal group
  | .mixinPath path => MixinPath.Normal path
  | .item x => x.Normal
  | .stylesheet sheet => Item.AllNormal sheet.items

theorem Item.allNormal_iff {xs : List Item} : Item.AllNormal xs ↔ ∀ x ∈ xs, x.Normal := by
  induction xs with
  | nil => simp [Item.AllNormal]
  | cons x xs ih => simp [Item.AllNormal, ih]

/-! ## Values -/

theorem StringText.interpolates {first : Text} {parts : List (Interpolation × Text)} {quote : Quote}
    (h : StringText (.interpolated first parts quote)) :
    Value.Interpolates (.interpolated first parts quote) quote := by
  cases h with
  | interpolated _ _ hne hparts =>
    refine ⟨by simpa [Value.interpolations] using hne,
      by simp [Value.segments, Value.interpolations], ?_, fun i hi => ?_⟩
    · simp [Value.ofSegments, Value.segments, Value.interpolations, List.zip_map']
    · obtain ⟨part, hmem, rfl⟩ := List.mem_map.mp hi
      exact (hparts part hmem).1

/-- What can be written where lists up to a rank may stand may stand in a list of a higher rank. -/
theorem Value.Written.mayHold {v : Value} {rank : Nat} {separator : Separator}
    (h : v.Written rank) (hrank : rank < separator.rank) : separator.MayHold v := by
  cases v with
  | list values inner => exact Nat.lt_of_le_of_lt h.1 hrank
  | ruleset block => exact h.elim
  | _ => trivial

/-- What is written with a quotation mark first begins with a string. -/
theorem Value.Written.beginsWithString : ∀ {rank : Nat} {v : Value}, v.Written rank →
    opensQuoted v.print = true → v.BeginsWithString
  | _, .string _ _, _, _ | _, .interpolated _ _ _, _, _ => trivial
  | _, .number value unit, h, hquote => by
    obtain ⟨x, l, hvalue, hx⟩ := h.1.cons
    rw [Value.print, hvalue] at hquote
    exact absurd hquote (Bool.eq_false_iff.mp (isNumeric_plain hx).1)
  | _, .identifier name, h, hquote => by
    obtain ⟨x, l, hname, hx⟩ := IsName.cons h.1
    rw [Value.print, hname] at hquote
    exact absurd hquote (Bool.eq_false_iff.mp (isNameChar_plain hx).1)
  | _, .call name arguments, h, hquote => by
    obtain ⟨x, l, hname, hx⟩ := IsName.cons h.1.1
    rw [Value.print, hname] at hquote
    exact absurd hquote (Bool.eq_false_iff.mp (isNameChar_plain hx).1)
  | _, .color _, _, hquote | _, .variable _, _, hquote | _, .property _, _, hquote
  | _, .url _, _, hquote => nomatch hquote
  | _, .list (v :: vs) separator, h, hquote => by
    obtain ⟨x, l, hprint, -⟩ := Value.Written.head h.2.2.1
    rw [Value.print, intercalate_printAll, hprint] at hquote
    have hfirst : v.BeginsWithString :=
      Value.Written.beginsWithString h.2.2.1 (by rw [hprint]; exact hquote)
    exact hfirst

theorem Value.AllWritten.firstBeginsWithString {rank : Nat} {vs : List Value}
    (h : Value.AllWritten rank vs) (hquote : opensQuoted (Value.argumentsText vs) = true) :
    Value.FirstBeginsWithString vs := by
  cases vs with
  | nil => cases hquote
  | cons v vs =>
    obtain ⟨x, l, hprint, -⟩ := Value.Written.head h.1
    rw [Value.argumentsText, intercalate_printAll, hprint] at hquote
    have hfirst : v.BeginsWithString := h.1.beginsWithString (by rw [hprint]; exact hquote)
    exact hfirst

mutual

/-- A value that can be written is in normal form. -/
theorem Value.Written.normal : ∀ {rank : Nat} {v : Value}, v.Written rank → v.Normal
  | _, .interpolated _ _ _, h => StringText.interpolates h
  | _, .identifier _, h => h.1
  | _, .variable _, h | _, .property _, h => h
  | _, .call _ _, ⟨⟨hname, _⟩, hurl, hall⟩ =>
    ⟨hname, fun v hv => (Value.allWritten_iff.mp hall v hv).mayHold (by decide),
      fun hcalls => hall.firstBeginsWithString (hurl hcalls), Value.AllWritten.allNormal hall⟩
  | _, .list _ separator, ⟨_, hlength, hall⟩ =>
    ⟨hlength, fun v hv => (Value.allWritten_iff.mp hall v hv).mayHold
      (by cases separator <;> decide), Value.AllWritten.allNormal hall⟩
  | _, .string _ _, _ | _, .number _ _, _ | _, .color _, _ | _, .url _, _ => trivial

theorem Value.AllWritten.allNormal : ∀ {rank : Nat} {vs : List Value},
    Value.AllWritten rank vs → Value.AllNormal vs
  | _, [], _ => trivial
  | _, _ :: _, h => ⟨Value.Written.normal h.1, Value.AllWritten.allNormal h.2⟩

end

namespace Grammar

variable {s : Settings} {lineComments : Bool} {levels : Nat} {inner? : Option (Rule Item)}
  {c rest : Cursor}

/-! ## Selectors -/

theorem ReadsSelector.printable {selector : Selector} (hc : c.Within)
    (h : ReadsSelector c selector rest) : selector.Printable := by
  cases h with
  | byId hmark hname his | byClass hmark hname his =>
    rw [Selector.Printable, hname.chars_next (hmark.within hc)]
    exact his
  | byType hname his =>
    rw [Selector.Printable, hname.chars_next hc]
    exact his
  | universal hmark => exact hmark.chars_next hc

/-- The selectors of a rule are selectors. -/
theorem ReadsGroup.normal {group : SelectorGroup} (h : ReadsGroup lineComments c group rest) :
    SelectorGroup.Normal group := by
  obtain ⟨mid, ⟨start, -, hstart, hfirst⟩, hothers⟩ := h
  refine ⟨group.toList_ne_nil, rfl, List.forall_mem_cons.mpr ⟨hfirst.printable hstart, ?_⟩⟩
  refine hothers.forall fun c selector rest hread => ?_
  obtain ⟨next, -, start, -, hstart, hread⟩ := hread
  exact hread.printable hstart

theorem mixinStep_namesMixin : mixinStep.Ensures fun _ step _ => step.NamesMixin := by
  refine ensures_choice fun r hr => ?_
  simp only [List.mem_cons, List.not_mem_nil, or_false] at hr
  rcases hr with rfl | rfl
  · refine ensures_map (nameAfter_ensures fun c cs rest hc hmark hname his => ?_)
    exact ⟨.inr rfl, by rw [hname.chars_next (hmark.within hc)]; exact his⟩
  · refine ensures_map (nameAfter_ensures fun c cs rest hc hmark hname his => ?_)
    exact ⟨.inl rfl, by rw [hname.chars_next (hmark.within hc)]; exact his⟩

theorem token_ensures_value {α : Type} {rule : Rule α} {p : α → Prop}
    (hrule : rule.Ensures fun _ v _ => p v) : (token s rule).Ensures fun _ v _ => p v :=
  ensures_mono (token_ensures hrule) fun _ _ _ _ _ ⟨_, _, _, hv⟩ => hv

theorem mixinPath_normal : (mixinPath s).Ensures fun _ path _ => MixinPath.Normal path := by
  have hstep : (token s mixinStep).Ensures fun _ step _ => step.NamesMixin :=
    token_ensures_value mixinStep_namesMixin
  have hjoint : (mixinJoint s).Ensures fun _ step _ => step.NamesMixin :=
    ensures_preceded
      (ensures_opt (ensures_mono (symbol_ensures (by simp)) fun _ _ _ _ _ _ => trivial)
        fun _ => trivial) hstep fun _ _ _ _ _ _ _ (_ : True) hstep => hstep
  refine ensures_map (ensures_both hstep (many_ensures hjoint) ?_)
  intro c step mid others rest _ _ hfirst hothers
  exact ⟨OneOrMore.toList_ne_nil _, rfl,
    List.forall_mem_cons.mpr ⟨hfirst, hothers.forall (p := Selector.NamesMixin) fun _ _ _ h => h⟩⟩

/-- Where a mixin is defined its path is a single step. -/
theorem mixinName_normal : (token s mixinName).Ensures fun _ path _ =>
    MixinPath.Normal path ∧ path.toList.length = 1 := by
  refine token_ensures_value (ensures_map (ensures_mono mixinStep_namesMixin ?_))
  intro c step rest _ _ hstep
  exact ⟨⟨OneOrMore.toList_ne_nil _, rfl, by simpa [OneOrMore.toList] using hstep⟩, rfl⟩

/-! ## Items -/

theorem name_isName : (token s name).Ensures fun _ t _ => IsName t.chars :=
  token_ensures_value (name_ensures fun _ _ _ hc hname his => by rwa [hname.chars_next hc])

theorem atName_isName : (token s atName).Ensures fun _ t _ => IsName t.chars :=
  token_ensures_value (atName_ensures fun _ _ _ hc hmark hname his => by
    rwa [hname.chars_next (hmark.within hc)])

theorem valueAt_normal : (valueAt s levels).Ensures fun _ v _ => v.Normal :=
  ensures_mono (valueAt_written levels) fun _ _ _ _ _ h => h.normal

/-- A value in normal form may be the value of a variable. -/
theorem endNormal {v : Value} (h : v.Normal) : v.EndNormal := by
  cases v with
  | ruleset block => exact h.elim
  | _ => exact h

theorem variableCall_normal : (variableCall s).Ensures fun _ x _ => x.Normal :=
  ensures_map (ensures_terminated (ensures_terminated atName_isName emptyParens_ensures
    fun _ _ _ _ _ _ _ hname _ => hname) (ensures_cut terminator_ensures)
    fun _ _ _ _ _ _ _ hname _ => hname)

theorem mixinCall_normal : (mixinCall s).Ensures fun _ x _ => x.Normal :=
  ensures_map (ensures_terminated (ensures_terminated mixinPath_normal emptyParens_ensures
    fun _ _ _ _ _ _ _ hpath _ => hpath) (ensures_cut terminator_ensures)
    fun _ _ _ _ _ _ _ hpath _ => hpath)

theorem declarationAt_normal : (declarationAt s levels).Ensures fun _ x _ => x.Normal := by
  have hnamed : (terminated (token s name) (symbol s [':'])).Ensures fun _ t _ => IsName t.chars :=
    ensures_terminated name_isName (symbol_ensures (by simp)) fun _ _ _ _ _ _ _ hname _ => hname
  have hvalued : (both (valueAt s levels) (terminated (important s) (terminator s))).Ensures
      fun _ found _ => found.1.Normal :=
    ensures_both valueAt_normal (ensures_terminated important_ensures terminator_ensures
      fun _ _ _ _ _ _ _ _ _ => trivial) fun _ _ _ _ _ _ _ hv (_ : True) => hv
  refine ensures_bind (Q := fun t _ x _ => ∃ v mark, x = .declaration t v mark ∧ v.Normal) hnamed
    (fun t => ensures_map (ensures_mono (ensures_cut hvalued) ?_)) ?_
  · exact fun _ found _ _ _ hv => ⟨found.1, found.2, rfl, hv⟩
  · rintro _ t _ _ _ - - hname ⟨v, mark, rfl, hv⟩
    exact ⟨hname, hv⟩

section

variable (hinner : ∀ inner ∈ inner?, Ensures inner fun _ x _ => x.Normal)
include hinner

theorem blockOver_normal : (blockOver s inner?).Ensures fun _ block _ => Item.AllNormal block := by
  refine ensures_mono (blockOver_ensures hinner) fun c block rest _ _ h => ?_
  cases h with
  | intro _ hitems _ =>
    exact Item.allNormal_iff.mpr (hitems.forall (p := Item.Normal) fun _ _ _ h => h)

theorem qualifiedRuleOver_normal : (qualifiedRuleOver s inner?).Ensures fun _ x _ => x.Normal :=
  ensures_map (ensures_both selectorGroup_ensures (blockOver_normal hinner)
    fun _ _ _ _ _ _ _ hgroup hblock => ⟨hgroup.normal, hblock⟩)

theorem mixinDeclarationOver_normal :
    (mixinDeclarationOver s inner?).Ensures fun _ x _ => x.Normal :=
  ensures_map (ensures_both (ensures_terminated mixinName_normal emptyParens_ensures
    fun _ _ _ _ _ _ _ hpath _ => hpath) (blockOver_normal hinner)
    fun _ _ _ _ _ _ _ hpath hblock => ⟨hpath.1, hpath.2, hblock⟩)

theorem variableValueOver_normal :
    (variableValueOver s levels inner?).Ensures fun _ v _ => v.EndNormal := by
  refine ensures_choice fun r hr => ?_
  simp only [List.mem_cons, List.not_mem_nil, or_false] at hr
  rcases hr with rfl | rfl
  · exact ensures_map (blockOver_normal hinner)
  · exact ensures_mono valueAt_normal fun _ _ _ _ _ h => endNormal h

theorem variableDeclarationOver_normal :
    (variableDeclarationOver s levels inner?).Ensures fun _ x _ => x.Normal := by
  have hnamed : (terminated (token s atName) (symbol s [':'])).Ensures
      fun _ t _ => IsName t.chars :=
    ensures_terminated atName_isName (symbol_ensures (by simp)) fun _ _ _ _ _ _ _ hname _ => hname
  refine ensures_bind (Q := fun t _ x _ => ∃ v, x = .variable t v ∧ v.EndNormal) hnamed
    (fun t => ensures_bind (Q := fun v _ x _ => x = .variable t v)
      (ensures_cut (variableValueOver_normal hinner))
      (fun v => ensures_map (ensures_mono (ensures_cut (variableEnd_ensures v)) ?_)) ?_) ?_
  · exact fun _ _ _ _ _ _ => rfl
  · rintro _ v _ _ _ - - hv rfl
    exact ⟨v, rfl, hv⟩
  · rintro _ t _ _ _ - - hname ⟨v, rfl, hv⟩
    exact ⟨hname, hv⟩

/-- An item is in normal form where the items of blocks are. -/
theorem itemOver_normal : (itemOver s levels inner?).Ensures fun _ x _ => x.Normal := by
  refine ensures_choice fun r hr => ?_
  simp only [List.mem_cons, List.not_mem_nil, or_false] at hr
  rcases hr with rfl | rfl | rfl | rfl | rfl | rfl
  · exact mixinDeclarationOver_normal hinner
  · exact declarationAt_normal
  · exact mixinCall_normal
  · exact qualifiedRuleOver_normal hinner
  · exact variableDeclarationOver_normal hinner
  · exact variableCall_normal

end

theorem innerItem?_normal (levels : Nat) :
    ∀ inner ∈ innerItem? s levels, Ensures inner fun _ x _ => x.Normal := by
  induction levels with
  | zero =>
    intro inner h
    cases h
  | succ levels ih =>
    intro inner h
    cases h
    exact itemOver_normal ih

theorem itemAt_normal (levels : Nat) : (itemAt s levels).Ensures fun _ x _ => x.Normal :=
  itemOver_normal (innerItem?_normal levels)

end Grammar

/-! ## Sources -/

section

variable {α : Type} {s : Settings} {source : Source} {expected : String}

/-- A family of rules ensures at each cursor what its members ensure. -/
theorem ensures_atLevel {rule : Nat → Rule α} {p : α → Prop}
    (hrule : ∀ levels, (rule levels).Ensures fun _ v _ => p v) :
    (atLevel s rule).Ensures fun _ v _ => p v :=
  fun c v rest hc h => hrule (levelsLeft s c) c v rest hc h

/-- A source that is not reported is read as what the rule ensures. -/
theorem parse_normal_of_ensures {rule : Rule α} {toTree : α → Tree}
    (hrule : rule.Ensures fun _ v _ => (toTree v).Normal) :
    (∃ e, (parse s rule source expected).map toTree = .error e) ∨
      ∃ t, (parse s rule source expected).map toTree = .ok t ∧ t.Normal := by
  cases hparse : parse s rule source expected with
  | error e => exact .inl ⟨e, rfl⟩
  | ok v =>
    obtain ⟨rest, -, hread, -⟩ := parse_matched hparse
    have hnormal := (hrule _ v rest (Cursor.within_ofText source.chars) hread).2
    exact .inr ⟨toTree v, rfl, hnormal⟩

end

/-- **Normal form.** A source is read as a tree in normal form, or what is wrong with it is
reported. -/
theorem Entry.parse_normal (entry : Entry) (s : Settings) (source : Source) :
    (∃ e, entry.parse s source = .error e) ∨ ∃ t, entry.parse s source = .ok t ∧ t.Normal := by
  cases entry with
  | stylesheet =>
    refine parse_normal_of_ensures (ensures_map (ensures_atLevel fun levels => ?_))
    refine ensures_mono (many_ensures (itemAt_normal levels)) fun _ _ _ _ _ hitems => ?_
    exact Item.allNormal_iff.mpr (hitems.forall (p := Item.Normal) fun _ _ _ h => h)
  | item => exact parse_normal_of_ensures (ensures_atLevel fun levels => itemAt_normal levels)
  | declaration => exact parse_normal_of_ensures (ensures_atLevel fun _ => declarationAt_normal)
  | value => exact parse_normal_of_ensures (ensures_atLevel fun _ => valueAt_normal)
  | selectorGroup =>
    exact parse_normal_of_ensures (ensures_mono selectorGroup_ensures
      fun _ _ _ _ _ hgroup => hgroup.normal)

end LessSyntax
