import LessSyntax.Tree.Basic

/-!
# Trees moved along a source

What is read from a text has its places in that text. Where the text stands in a longer one, the
same tree has them further on. To shift a tree changes its places and nothing else.

* `Tree.shift`: a tree with all its places moved.
* `Value.shift_neg_shift`, `Item.shift_neg_shift`: a tree can be moved back.
-/

namespace LessSyntax

variable {offset : Int}

/-! ## Texts -/

def Span.shift (offset : Int) (span : Span) : Span := ⟨span.start + offset, span.stop + offset⟩

/-- The same characters; a place in a source moves. -/
def Text.shift (offset : Int) (t : Text) : Text := ⟨t.chars, t.span.map (Span.shift offset)⟩

@[simp]
theorem Span.shift_neg_shift (span : Span) : (span.shift offset).shift (-offset) = span := by
  simp only [Span.shift, Int.add_neg_cancel_right]

@[simp]
theorem Text.shift_neg_shift (t : Text) : (t.shift offset).shift (-offset) = t := by
  obtain ⟨chars, span⟩ := t
  cases span with
  | none => rfl
  | some span => exact congrArg (fun span => Text.mk chars (some span)) span.shift_neg_shift

/-! ## Trees -/

def Interpolation.shift (offset : Int) : Interpolation → Interpolation
  | .variable name => .variable (name.shift offset)
  | .property name => .property (name.shift offset)

/-- An interpolation and the segment behind it. -/
def shiftPart (offset : Int) (part : Interpolation × Text) : Interpolation × Text :=
  (part.1.shift offset, part.2.shift offset)

def Selector.shift (offset : Int) (selector : Selector) : Selector :=
  ⟨selector.kind, selector.name.shift offset⟩

mutual

def Value.shift (offset : Int) : Value → Value
  | .string text quote => .string (text.shift offset) quote
  | .interpolated first parts quote =>
    .interpolated (first.shift offset) (parts.map (shiftPart offset)) quote
  | .number value unit => .number (value.shift offset) (unit.map (Text.shift offset))
  | .color hex => .color (hex.shift offset)
  | .identifier name => .identifier (name.shift offset)
  | .variable name => .variable (name.shift offset)
  | .property name => .property (name.shift offset)
  | .call name arguments => .call (name.shift offset) (Value.shiftAll offset arguments)
  | .url address => .url (address.shift offset)
  | .list values separator => .list (Value.shiftAll offset values) separator
  | .ruleset block => .ruleset (Item.shiftAll offset block)

def Value.shiftAll (offset : Int) : List Value → List Value
  | [] => []
  | v :: vs => Value.shift offset v :: Value.shiftAll offset vs

def Item.shift (offset : Int) : Item → Item
  | .declaration name value important =>
    .declaration (name.shift offset) (Value.shift offset value) important
  | .rule selectors block =>
    .rule (selectors.map (Selector.shift offset)) (Item.shiftAll offset block)
  | .mixin path block => .mixin (path.map (Selector.shift offset)) (Item.shiftAll offset block)
  | .mixinCall path => .mixinCall (path.map (Selector.shift offset))
  | .variable name value => .variable (name.shift offset) (Value.shift offset value)
  | .variableCall name => .variableCall (name.shift offset)

def Item.shiftAll (offset : Int) : List Item → List Item
  | [] => []
  | x :: xs => Item.shift offset x :: Item.shiftAll offset xs

end

def Stylesheet.shift (offset : Int) (sheet : Stylesheet) : Stylesheet :=
  ⟨Item.shiftAll offset sheet.items⟩

def Tree.shift (offset : Int) : Tree → Tree
  | .interpolation i => .interpolation (i.shift offset)
  | .value v => .value (v.shift offset)
  | .selector a => .selector (a.shift offset)
  | .selectors group => .selectors (group.map (Selector.shift offset))
  | .mixinPath path => .mixinPath (path.map (Selector.shift offset))
  | .item x => .item (x.shift offset)
  | .stylesheet sheet => .stylesheet (sheet.shift offset)

theorem Value.shiftAll_eq (offset : Int) (vs : List Value) :
    Value.shiftAll offset vs = vs.map (Value.shift offset) := by
  induction vs with
  | nil => rfl
  | cons v vs ih => rw [Value.shiftAll, List.map_cons, ih]

theorem Item.shiftAll_eq (offset : Int) (xs : List Item) :
    Item.shiftAll offset xs = xs.map (Item.shift offset) := by
  induction xs with
  | nil => rfl
  | cons x xs ih => rw [Item.shiftAll, List.map_cons, ih]

/-! ## Moving back -/

@[simp]
theorem shiftPart_neg (part : Interpolation × Text) :
    shiftPart (-offset) (shiftPart offset part) = part := by
  obtain ⟨name | name, text⟩ := part <;>
    simp [shiftPart, Interpolation.shift]

@[simp]
theorem Selector.shift_neg_shift (selector : Selector) :
    (selector.shift offset).shift (-offset) = selector := by
  simp [Selector.shift]

@[simp]
theorem Selector.map_shift_neg (selectors : OneOrMore Selector) :
    (selectors.map (Selector.shift offset)).map (Selector.shift (-offset)) = selectors := by
  obtain ⟨first, others⟩ := selectors
  have hback : Selector.shift (-offset) ∘ Selector.shift offset = id :=
    funext Selector.shift_neg_shift
  rw [OneOrMore.map, OneOrMore.map, first.shift_neg_shift, List.map_map, hback, List.map_id]

mutual

@[simp]
theorem Value.shift_neg_shift : ∀ v : Value, (v.shift offset).shift (-offset) = v
  | .string text _ => by rw [Value.shift, Value.shift, text.shift_neg_shift]
  | .interpolated first parts _ => by
    have hback : shiftPart (-offset) ∘ shiftPart offset = id := funext shiftPart_neg
    rw [Value.shift, Value.shift, first.shift_neg_shift, List.map_map, hback, List.map_id]
  | .number value none => by rw [Value.shift, Value.shift, value.shift_neg_shift]; rfl
  | .number value (some unit) => by
    rw [Value.shift, Value.shift, value.shift_neg_shift, Option.map_some, Option.map_some,
      unit.shift_neg_shift]
  | .color text | .identifier text | .variable text | .property text | .url text => by
    rw [Value.shift, Value.shift, text.shift_neg_shift]
  | .call name arguments => by
    rw [Value.shift, Value.shift, name.shift_neg_shift, Value.shiftAll_neg_shiftAll arguments]
  | .list values _ => by rw [Value.shift, Value.shift, Value.shiftAll_neg_shiftAll values]
  | .ruleset block => by rw [Value.shift, Value.shift, Item.shiftAll_neg_shiftAll block]

@[simp]
theorem Value.shiftAll_neg_shiftAll :
    ∀ vs : List Value, Value.shiftAll (-offset) (Value.shiftAll offset vs) = vs
  | [] => rfl
  | v :: vs => by
    rw [Value.shiftAll, Value.shiftAll, v.shift_neg_shift, Value.shiftAll_neg_shiftAll vs]

@[simp]
theorem Item.shift_neg_shift : ∀ x : Item, (x.shift offset).shift (-offset) = x
  | .declaration name value _ => by
    rw [Item.shift, Item.shift, name.shift_neg_shift, value.shift_neg_shift]
  | .rule selectors block | .mixin selectors block => by
    rw [Item.shift, Item.shift, Selector.map_shift_neg, Item.shiftAll_neg_shiftAll block]
  | .mixinCall path => by rw [Item.shift, Item.shift, Selector.map_shift_neg]
  | .variable name value => by
    rw [Item.shift, Item.shift, name.shift_neg_shift, value.shift_neg_shift]
  | .variableCall name => by rw [Item.shift, Item.shift, name.shift_neg_shift]

@[simp]
theorem Item.shiftAll_neg_shiftAll :
    ∀ xs : List Item, Item.shiftAll (-offset) (Item.shiftAll offset xs) = xs
  | [] => rfl
  | x :: xs => by
    rw [Item.shiftAll, Item.shiftAll, x.shift_neg_shift, Item.shiftAll_neg_shiftAll xs]

end

theorem Item.shiftAll_inj {xs ys : List Item} :
    Item.shiftAll offset xs = Item.shiftAll offset ys ↔ xs = ys := by
  refine ⟨fun h => ?_, congrArg _⟩
  rw [← Item.shiftAll_neg_shiftAll xs, h, Item.shiftAll_neg_shiftAll ys]

end LessSyntax
