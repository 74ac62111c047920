import LessSyntax.Proofs.NormalForm
import LessSyntax.Proofs.RoundTrip
import LessSyntax.Tree.Walk

/-!
# The values in a tree

Values stand in declarations and variables, in the arguments of calls and in lists, and in the
blocks of items. Wherever one stands in a tree that is read, it is a block or can be written. So
what is true of the texts of values that can be written is true of all values of the tree.

* `itemAt_values`: what is true of all values that are read is true of those in an item.
* `Entry.parse_values`: every value in a tree that is read can be written, or is a block.
-/

namespace LessSyntax

open Grammar Rule

/-! ## Values that can be written -/

mutual

/-- All values inside a value that can be written can be written themselves. -/
theorem Value.Written.values : ∀ {rank : Nat} {v : Value}, v.Written rank →
    ∀ u ∈ v.values, ∃ rank', u.Written rank'
  | rank, .call name arguments, h => by
    rw [Value.values, List.forall_mem_cons]
    exact ⟨⟨rank, h⟩, Value.AllWritten.values h.2.2⟩
  | rank, .list vs separator, h => by
    rw [Value.values, List.forall_mem_cons]
    exact ⟨⟨rank, h⟩, Value.AllWritten.values h.2.2⟩
  | rank, .string _ _, h | rank, .interpolated _ _ _, h | rank, .number _ _, h
  | rank, .color _, h | rank, .identifier _, h | rank, .variable _, h | rank, .property _, h
  | rank, .url _, h => by
    simpa [Value.values] using ⟨rank, h⟩

theorem Value.AllWritten.values : ∀ {rank : Nat} {vs : List Value}, Value.AllWritten rank vs →
    ∀ u ∈ Value.valuesAll vs, ∃ rank', u.Written rank'
  | _, [], _ => by simp [Value.valuesAll]
  | _, _ :: _, h => by
    rw [Value.valuesAll, List.forall_mem_append]
    exact ⟨Value.Written.values h.1, Value.AllWritten.values h.2⟩

end

theorem Item.valuesAll_eq (xs : List Item) : Item.valuesAll xs = xs.flatMap Item.values := by
  induction xs with
  | nil => rfl
  | cons x xs ih => rw [Item.valuesAll, ih, List.flatMap_cons]

theorem Item.forall_valuesAll {p : Value → Prop} {xs : List Item} :
    (∀ u ∈ Item.valuesAll xs, p u) ↔ ∀ x ∈ xs, ∀ u ∈ x.values, p u := by
  simp only [Item.valuesAll_eq, List.mem_flatMap]
  exact ⟨fun h x hx u hu => h u ⟨x, hx, hu⟩, fun h u ⟨x, hx, hu⟩ => h x hx u hu⟩

/-! ## Values in items -/

namespace Grammar

variable {s : Settings} {lineComments : Bool} {p : Value → Prop} {c rest : Cursor}

/-- The postconditions: all values inside have the property. -/
def HoldsValue (p : Value → Prop) (_ : Cursor) (v : Value) (_ : Cursor) : Prop :=
  ∀ u ∈ v.values, p u

def HoldsItem (p : Value → Prop) (_ : Cursor) (x : Item) (_ : Cursor) : Prop := ∀ u ∈ x.values, p u

theorem ReadsBlock.values {block : List Item}
    (h : ReadsBlock lineComments (HoldsItem p) c block rest) : ∀ u ∈ Item.valuesAll block, p u := by
  cases h with
  | intro _ hitems _ =>
    exact Item.forall_valuesAll.mpr (hitems.forall (p := fun x : Item => ∀ u ∈ x.values, p u)
      fun _ _ _ h => h)

theorem ReadsItem.values (hblock : ∀ block, p (.ruleset block)) {x : Item}
    (h : ReadsItem lineComments (HoldsValue p) (HoldsItem p) c x rest) : ∀ u ∈ x.values, p u := by
  cases h with
  | ofDeclaration _ _ hvalue _ _ => exact hvalue
  | ofRule _ hitems | ofMixin _ _ hitems => exact hitems.values
  | ofMixinCall _ _ _ | ofVariableCall _ _ _ => simp [Item.values]
  | ofVariable _ _ hvalue _ =>
    rcases hvalue with ⟨block, rfl, hitems⟩ | hvalue
    · rw [Item.values, Value.values, List.forall_mem_cons]
      exact ⟨hblock block, hitems.values⟩
    · exact hvalue

/-- What is true of blocks and of all values that are read is true of the values in an item. -/
theorem itemAt_values (hblock : ∀ block, p (.ruleset block))
    (hvalue : ∀ levels, (valueAt s levels).Ensures (HoldsValue p)) (levels : Nat) :
    (itemAt s levels).Ensures (HoldsItem p) :=
  itemAt_ensures hvalue (fun _ _ _ _ _ h => h.values hblock) levels

theorem declarationAt_values (hblock : ∀ block, p (.ruleset block)) {levels : Nat}
    (hvalue : (valueAt s levels).Ensures (HoldsValue p)) :
    (declarationAt s levels).Ensures (HoldsItem p) :=
  ensures_mono (declarationAt_ensures (P := HoldsItem p) hvalue) fun _ _ _ _ _ h => h.values hblock

/-- What a rule for the arguments of calls reads can be written. -/
def WrittenOrBlock (u : Value) : Prop := (∃ rank, u.Written rank) ∨ ∃ block, u = .ruleset block

theorem valueAt_values (levels : Nat) :
    (valueAt s levels).Ensures (HoldsValue WrittenOrBlock) :=
  ensures_mono (valueAt_written levels) fun _ _ _ _ _ h u hu => .inl (h.values u hu)

end Grammar

/-! ## Sources -/

variable {α : Type} {s : Settings} {source : Source} {expected : String}

theorem parse_values_of_ensures {rule : Rule α} {toTree : α → Tree} {p : Value → Prop} {t : Tree}
    (hrule : rule.Ensures fun _ v _ => ∀ u ∈ (toTree v).values, p u)
    (h : (parse s rule source expected).map toTree = .ok t) : ∀ u ∈ t.values, p u := by
  cases hparse : parse s rule source expected with
  | error e =>
    rw [hparse] at h
    cases h
  | ok v =>
    rw [hparse] at h
    cases h
    obtain ⟨rest, -, hread, -⟩ := parse_matched hparse
    exact (hrule _ v rest (Cursor.within_ofText source.chars) hread).2

/-- Wherever a value stands in a tree that is read, it can be written or is a block. -/
theorem Entry.parse_values (entry : Entry) {t : Tree} (h : entry.parse s source = .ok t) :
    ∀ u ∈ t.values, WrittenOrBlock u := by
  have hblock : ∀ block, WrittenOrBlock (.ruleset block) := fun block => .inr ⟨block, rfl⟩
  have hitem := itemAt_values (s := s) hblock valueAt_values
  cases entry with
  | stylesheet =>
    refine parse_values_of_ensures (ensures_map (ensures_atLevel fun levels => ?_)) h
    refine ensures_mono (many_ensures (hitem levels)) fun _ _ _ _ _ hitems => ?_
    exact Item.forall_valuesAll.mpr
      (hitems.forall (p := fun x : Item => ∀ u ∈ x.values, WrittenOrBlock u) fun _ _ _ h => h)
  | item => exact parse_values_of_ensures (ensures_atLevel fun levels => hitem levels) h
  | declaration =>
    exact parse_values_of_ensures
      (ensures_atLevel fun _ => declarationAt_values hblock (valueAt_values _)) h
  | value => exact parse_values_of_ensures (ensures_atLevel fun levels => valueAt_values levels) h
  | selectorGroup =>
    exact parse_values_of_ensures
      (ensures_mono selectorGroup_ensures fun _ _ _ _ _ _ => by simp [Tree.values]) h

end LessSyntax
