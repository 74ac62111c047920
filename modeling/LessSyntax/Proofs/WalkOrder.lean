import LessSyntax.Proofs.NormalForm
import LessSyntax.Proofs.Tiling
import LessSyntax.Tree.Walk
import Mathlib.Data.List.Basic

/-!
# The order of the walk

The walk through a stylesheet searches the blocks of rules and mixins and those that are the whole
value of a variable. Items could stand in other values too, in an argument of a call or in a list:
the types of trees allow it. No source is read as such a tree, so that the walk of one that is read
finds all items.

Where an item stands is told by its address, which goes through any child of a node, searched by
the walk or not. Among the addresses in the order of the walk none is the beginning of an earlier
one: every item comes before what it contains, and none comes twice.

* `Node.itemAt?`, `Stylesheet.itemAt?`: the item at an address.
* `Visits`: items are those at the given addresses, and there are no others.
* `Item.Normal.visits`: the walk of an item in normal form.
* `Tiles.pairwise_start`: texts that tile a source start one behind the other.
* `parseStylesheet_walk`: the order of the walk.
-/

namespace LessSyntax

open Grammar Rule

/-! ## Addresses -/

/-- What a tree is made of. -/
inductive Node where
  | item (x : Item)
  | value (v : Value)

namespace Node

/-- What stands directly inside a node, in the order of its fields. -/
def children : Node → List Node
  | .item (.declaration _ v _) => [.value v]
  | .item (.rule _ block) => block.map .item
  | .item (.mixin _ block) => block.map .item
  | .item (.mixinCall _) => []
  | .item (.variable _ v) => [.value v]
  | .item (.variableCall _) => []
  | .value (.call _ arguments) => arguments.map .value
  | .value (.list values _) => values.map .value
  | .value (.ruleset block) => block.map .item
  | .value _ => []

def item? : Node → Option Item
  | .item x => some x
  | .value _ => none

/-- The item at an address, which says at each node which child to go to. -/
def itemAt? : Node → List Nat → Option Item
  | node, [] => node.item?
  | node, i :: address => node.children[i]?.bind fun child => child.itemAt? address

/-- The item at an address that begins with the number of one of the nodes. -/
def itemAmong? (nodes : List Node) : List Nat → Option Item
  | [] => none
  | i :: address => nodes[i]?.bind fun node => node.itemAt? address

end Node

def Stylesheet.itemAt? (sheet : Stylesheet) : List Nat → Option Item :=
  Node.itemAmong? (sheet.items.map .item)

/-! ## All items in order -/

/-- At the addresses stand the items, one at each, and elsewhere stands none. No address is the
beginning of an earlier one. -/
structure Visits (itemAt? : List Nat → Option Item) (addresses : List (List Nat))
    (xs : List Item) : Prop where
  items : xs.map some = addresses.map itemAt?
  complete : ∀ address, (itemAt? address).isSome → address ∈ addresses
  ordered : addresses.Pairwise fun a b => ¬ b <+: a

variable {itemAt? : List Nat → Option Item} {addresses as bs : List (List Nat)} {xs ys : List Item}
  {x : Item} {node : Node} {nodes : List Node}

theorem Visits.isSome (h : Visits itemAt? addresses xs) {address : List Nat}
    (hmem : address ∈ addresses) : (itemAt? address).isSome := by
  have hfound : itemAt? address ∈ xs.map some := by
    rw [h.items]
    exact List.mem_map_of_mem hmem
  obtain ⟨x, -, hx⟩ := List.mem_map.mp hfound
  rw [← hx, Option.isSome_some]

theorem Visits.mem_iff (h : Visits itemAt? addresses xs) (address : List Nat) :
    address ∈ addresses ↔ (itemAt? address).isSome :=
  ⟨h.isSome, h.complete address⟩

/-- An address is a beginning of itself. -/
theorem Visits.nodup (h : Visits itemAt? addresses xs) : addresses.Nodup := by
  refine h.ordered.imp fun hnot heq => ?_
  subst heq
  exact hnot (List.prefix_refl _)

theorem visits_none (hnone : ∀ address, itemAt? address = none) : Visits itemAt? [] [] := by
  refine ⟨rfl, fun address hsome => ?_, .nil⟩
  rw [hnone] at hsome
  cases hsome

theorem visits_nil : Visits (Node.itemAmong? []) [] [] := by
  refine visits_none fun address => ?_
  cases address <;> rfl

theorem itemAmong?_next (address : List Nat) :
    Node.itemAmong? (node :: nodes) (address.modifyHead (· + 1))
      = Node.itemAmong? nodes address := by
  cases address <;> rfl

theorem isPrefix_modifyHead {a b : List Nat}
    (h : b.modifyHead (· + 1) <+: a.modifyHead (· + 1)) : b <+: a := by
  cases b with
  | nil => exact List.nil_prefix
  | cons j b =>
    cases a with
    | nil => exact absurd (List.prefix_nil.mp h) (by simp)
    | cons i a =>
      rw [List.modifyHead_cons, List.modifyHead_cons, List.cons_prefix_cons] at h
      exact List.cons_prefix_cons.mpr ⟨Nat.succ.inj h.1, h.2⟩

/-- The items at the first node come before those at the others. -/
theorem Visits.cons (hnode : Visits node.itemAt? as xs)
    (hnodes : Visits (Node.itemAmong? nodes) bs ys) :
    Visits (Node.itemAmong? (node :: nodes))
      (as.map (0 :: ·) ++ bs.map (List.modifyHead (· + 1))) (xs ++ ys) := by
  refine ⟨?_, fun address hsome => ?_, ?_⟩
  · rw [List.map_append, List.map_append, List.map_map, List.map_map, hnode.items, hnodes.items]
    congr 1
    exact List.map_congr_left fun address _ => (itemAmong?_next address).symm
  · match address, hsome with
    | 0 :: address, hsome =>
      exact List.mem_append_left _ (List.mem_map_of_mem (hnode.complete address hsome))
    | (i + 1) :: address, hsome =>
      have hmem := hnodes.complete (i :: address) hsome
      exact List.mem_append_right _ (List.mem_map.mpr ⟨_, hmem, rfl⟩)
  · refine List.pairwise_append.mpr ⟨?_, ?_, ?_⟩
    · refine List.pairwise_map.mpr (hnode.ordered.imp fun hnot hprefix => hnot ?_)
      exact (List.cons_prefix_cons.mp hprefix).2
    · exact List.pairwise_map.mpr (hnodes.ordered.imp fun hnot hprefix =>
        hnot (isPrefix_modifyHead hprefix))
    · intro a ha b hb hprefix
      obtain ⟨a, -, rfl⟩ := List.mem_map.mp ha
      obtain ⟨b, hmem, rfl⟩ := List.mem_map.mp hb
      match b, hnodes.isSome hmem with
      | i :: b, _ => exact absurd (List.cons_prefix_cons.mp hprefix).1 (by simp)

/-- An item comes before all that it contains. -/
theorem Visits.item (hchildren : (Node.item x).children = nodes)
    (h : Visits (Node.itemAmong? nodes) addresses xs) :
    Visits (Node.item x).itemAt? ([] :: addresses) (x :: xs) := by
  subst hchildren
  have hne : ∀ address ∈ addresses, address ≠ [] := by
    rintro _ hmem rfl
    cases h.isSome hmem
  refine ⟨?_, fun address hsome => ?_, List.pairwise_cons.mpr ⟨fun b hb hprefix => ?_, h.ordered⟩⟩
  · rw [List.map_cons, List.map_cons, h.items]
    congr 1
    refine List.map_congr_left fun address hmem => ?_
    obtain ⟨i, address, rfl⟩ := List.exists_cons_of_ne_nil (hne address hmem)
    rfl
  · cases address with
    | nil => exact List.mem_cons_self
    | cons i address => exact List.mem_cons_of_mem _ (h.complete (i :: address) hsome)
  · exact hne b hb (List.prefix_nil.mp hprefix)

theorem Visits.value {v : Value} (hchildren : (Node.value v).children = nodes)
    (h : Visits (Node.itemAmong? nodes) addresses xs) :
    Visits (Node.value v).itemAt? addresses xs := by
  subst hchildren
  have hsame : (Node.value v).itemAt? = Node.itemAmong? (Node.value v).children := by
    funext address
    cases address <;> rfl
  rw [hsame]
  exact h

/-- The items of a value are those of the node that has it as its only child. -/
theorem Visits.only (h : Visits node.itemAt? addresses xs) :
    ∃ addresses, Visits (Node.itemAmong? [node]) addresses xs := by
  have hvisits := h.cons visits_nil
  rw [List.append_nil] at hvisits
  exact ⟨_, hvisits⟩

/-! ## Trees in normal form -/

mutual

/-- A value in normal form contains no items. -/
theorem Value.Normal.visits : ∀ {v : Value}, v.Normal → Visits (Node.value v).itemAt? [] []
  | .call _ _, h => Visits.value rfl (Value.AllNormal.visits h.2.2.2)
  | .list _ _, h => Visits.value rfl (Value.AllNormal.visits h.2.2)
  | .string _ _, _ | .interpolated _ _ _, _ | .number _ _, _ | .color _, _ | .identifier _, _
  | .variable _, _ | .property _, _ | .url _, _ => Visits.value rfl visits_nil

theorem Value.AllNormal.visits : ∀ {vs : List Value}, Value.AllNormal vs →
    Visits (Node.itemAmong? (vs.map .value)) [] []
  | [], _ => visits_nil
  | _ :: _, h => Visits.cons (Value.Normal.visits h.1) (Value.AllNormal.visits h.2)

end

mutual

/-- The walk of an item in normal form finds all items. -/
theorem Item.Normal.visits : ∀ {x : Item}, x.Normal →
    ∃ addresses, Visits (Node.item x).itemAt? addresses x.walk
  | .declaration _ _ _, h => by
    obtain ⟨_, hvalue⟩ := h.2.visits.only
    exact ⟨_, hvalue.item rfl⟩
  | .rule _ _, h => by
    obtain ⟨_, hblock⟩ := Item.AllNormal.visits h.2
    exact ⟨_, hblock.item rfl⟩
  | .mixin _ _, h => by
    obtain ⟨_, hblock⟩ := Item.AllNormal.visits h.2.2
    exact ⟨_, hblock.item rfl⟩
  | .variable _ _, h => by
    obtain ⟨_, hvalue⟩ := Value.EndNormal.visits h.2
    obtain ⟨_, honly⟩ := hvalue.only
    exact ⟨_, honly.item rfl⟩
  | .mixinCall _, _ | .variableCall _, _ => ⟨_, visits_nil.item rfl⟩

theorem Value.EndNormal.visits : ∀ {v : Value}, v.EndNormal →
    ∃ addresses, Visits (Node.value v).itemAt? addresses v.walk
  | .ruleset _, h => by
    obtain ⟨_, hblock⟩ := Item.AllNormal.visits h
    exact ⟨_, hblock.value rfl⟩
  | .string _ _, h | .interpolated _ _ _, h | .number _ _, h | .color _, h | .identifier _, h
  | .variable _, h | .property _, h | .call _ _, h | .url _, h | .list _ _, h =>
    ⟨_, Value.Normal.visits h⟩

theorem Item.AllNormal.visits : ∀ {xs : List Item}, Item.AllNormal xs →
    ∃ addresses, Visits (Node.itemAmong? (xs.map .item)) addresses (Item.walkAll xs)
  | [], _ => ⟨_, visits_nil⟩
  | _ :: _, h => by
    obtain ⟨_, hfirst⟩ := Item.Normal.visits h.1
    obtain ⟨_, hothers⟩ := Item.AllNormal.visits h.2
    exact ⟨_, hfirst.cons hothers⟩

end

mutual

theorem Item.Normal.walk : ∀ {x : Item}, x.Normal → ∀ y ∈ x.walk, y.Normal
  | .rule _ _, h => List.forall_mem_cons.mpr ⟨h, Item.AllNormal.walk h.2⟩
  | .mixin _ _, h => List.forall_mem_cons.mpr ⟨h, Item.AllNormal.walk h.2.2⟩
  | .variable _ _, h => List.forall_mem_cons.mpr ⟨h, Value.EndNormal.walk h.2⟩
  | .declaration _ _ _, h | .mixinCall _, h | .variableCall _, h => List.forall_mem_singleton.mpr h

theorem Value.EndNormal.walk : ∀ {v : Value}, v.EndNormal → ∀ y ∈ v.walk, y.Normal
  | .ruleset _, h => Item.AllNormal.walk h
  | .string _ _, _ | .interpolated _ _ _, _ | .number _ _, _ | .color _, _ | .identifier _, _
  | .variable _, _ | .property _, _ | .call _ _, _ | .url _, _ | .list _ _, _ => by
    simp [Value.walk]

theorem Item.AllNormal.walk : ∀ {xs : List Item}, Item.AllNormal xs →
    ∀ y ∈ Item.walkAll xs, y.Normal
  | [], _ => by simp [Item.walkAll]
  | _ :: _, h => by
    rw [Item.walkAll, List.forall_mem_append]
    exact ⟨Item.Normal.walk h.1, Item.AllNormal.walk h.2⟩

end

/-! ## First texts -/

/-- The place where a text starts, if it stands in a source. -/
def Text.start? (t : Text) : Option Int := t.span.map Span.start

/-- The place where the first text of an item starts. -/
def Item.start? (x : Item) : Option Int := x.leaves.head?.bind Text.start?

mutual

/-- The first texts of the items that the walk finds are texts of the tree, in the same order. -/
theorem Item.walk_leaves : ∀ x : Item, (x.walk.filterMap fun y => y.leaves.head?).Sublist x.leaves
  | .declaration _ _ _ => (List.nil_sublist _).cons_cons _
  | .rule _ block | .mixin _ block =>
    ((Item.walkAll_leaves block).trans (List.sublist_append_right _ _)).cons_cons _
  | .variable _ v => (Value.walk_leaves v).cons_cons _
  | .mixinCall _ | .variableCall _ => (List.nil_sublist _).cons_cons _

theorem Value.walk_leaves : ∀ v : Value, (v.walk.filterMap fun y => y.leaves.head?).Sublist v.leaves
  | .ruleset block => Item.walkAll_leaves block
  | .string _ _ | .interpolated _ _ _ | .number _ _ | .color _ | .identifier _ | .variable _
  | .property _ | .call _ _ | .url _ | .list _ _ => List.nil_sublist _

theorem Item.walkAll_leaves : ∀ xs : List Item,
    ((Item.walkAll xs).filterMap fun y => y.leaves.head?).Sublist (Item.leavesAll xs)
  | [] => List.nil_sublist _
  | x :: xs => by
    rw [Item.walkAll, List.filterMap_append]
    exact (Item.walk_leaves x).append (Item.walkAll_leaves xs)

end

theorem Selector.Printable.ne_nil {selector : Selector} (h : selector.Printable) :
    selector.name.chars ≠ [] := by
  unfold Selector.Printable at h
  split at h
  · rw [h]
    exact List.cons_ne_nil _ _
  · exact h.ne_nil

/-- Items begin with a name, or with the star that is a selector. -/
theorem Item.Normal.head_leaves : ∀ {x : Item}, x.Normal →
    ∃ t, x.leaves.head? = some t ∧ t.chars ≠ []
  | .declaration _ _ _, h | .variable _ _, h => ⟨_, rfl, h.1.ne_nil⟩
  | .variableCall _, h => ⟨_, rfl, IsName.ne_nil h⟩
  | .rule selectors _, h =>
    ⟨_, rfl, (h.1.selectors selectors.first List.mem_cons_self).ne_nil⟩
  | .mixin path _, h => ⟨_, rfl, (h.1.steps path.first List.mem_cons_self).printable.ne_nil⟩
  | .mixinCall path, h => ⟨_, rfl, (h.steps path.first List.mem_cons_self).printable.ne_nil⟩

/-! ## Places of texts -/

section

variable {lineComments : Bool} {source : List Char} {i j : Nat} {ts : List Text}

/-- Texts that tile a part of a source start in that part. -/
theorem Tiles.start (h : Tiles lineComments source i ts j) :
    ∀ t ∈ ts, ∃ start : Int, t.start? = some start ∧ (i : Int) ≤ start := by
  induction h with
  | last _ _ _ => simp
  | @cons i start stop j ts hstart hstop _ _ _ ih =>
    refine List.forall_mem_cons.mpr ⟨⟨start, rfl, by omega⟩, fun t ht => ?_⟩
    obtain ⟨place, hplace, hle⟩ := ih t ht
    exact ⟨place, hplace, by omega⟩

/-- Behind a text that is not empty the next one starts further on. -/
theorem Tiles.pairwise_start (h : Tiles lineComments source i ts j) :
    ts.Pairwise fun t u => t.chars ≠ [] →
      ∀ a, t.start? = some a → ∀ b, u.start? = some b → a < b := by
  induction h with
  | last _ _ _ => exact .nil
  | @cons i start stop j ts _ hstop _ _ htiles ih =>
    refine List.pairwise_cons.mpr ⟨fun u hu hne a ha b hb => ?_, ih⟩
    obtain ⟨place, hplace, hle⟩ := htiles.start u hu
    have hlt : start < stop := by
      refine Nat.lt_of_not_le fun hempty => hne ?_
      simp [Text.borrowed, Nat.sub_eq_zero_of_le hempty]
    cases ha
    rw [hplace] at hb
    cases hb
    have hnext : (start : Int) < stop := by exact_mod_cast hlt
    exact Int.lt_of_lt_of_le hnext hle

end

/-! ## Stylesheets -/

section

variable {s : Settings} {source : Source} {sheet : Stylesheet}

/-- The items of a stylesheet are read one after the other from the start of the source. -/
theorem parseStylesheet_reads (h : parseStylesheet s source = .ok sheet) :
    ∃ rest, many (itemAt s s.maxDepth) (Cursor.ofText source.chars)
      = .matched sheet.items rest := by
  rw [parseStylesheet_eq] at h
  obtain ⟨rest, -, hsheet, -⟩ := parse_matched h
  obtain ⟨xs, hitems, rfl⟩ := map_matched.mp hsheet
  exact ⟨rest, hitems⟩

theorem parseStylesheet_allNormal (h : parseStylesheet s source = .ok sheet) :
    Item.AllNormal sheet.items := by
  obtain ⟨rest, hread⟩ := parseStylesheet_reads h
  have hall := (many_ensures (itemAt_normal s.maxDepth) _ _ _ (Cursor.within_ofText _) hread).2
  exact Item.allNormal_iff.mpr (hall.forall (p := Item.Normal) fun _ _ _ h => h)

/-- The texts of a stylesheet tile the part of the source that its items stand in. -/
theorem parseStylesheet_tilesItems (h : parseStylesheet s source = .ok sheet) :
    ∃ stop, Tiles s.lineComments source.chars 0 sheet.leaves stop := by
  obtain ⟨rest, hread⟩ := parseStylesheet_reads h
  have hstart := Cursor.within_ofText source.chars
  have hall := (many_ensures (itemAt_covers s s.maxDepth) _ _ _ hstart hread).2
  have hcovers := covers_all hstart hall fun _ _ _ hc h => h hc
  rw [Stylesheet.leaves, Item.leavesAll_eq]
  exact ⟨_, hcovers.tiles⟩

/-- Every item that the walk finds has a first text, which is not empty and stands in the source. -/
theorem parseStylesheet_firstTexts (h : parseStylesheet s source = .ok sheet) :
    ∀ x ∈ sheet.walk, ∃ t start,
      x.leaves.head? = some t ∧ t.chars ≠ [] ∧ t.start? = some start := by
  intro x hx
  obtain ⟨stop, htiles⟩ := parseStylesheet_tilesItems h
  obtain ⟨t, hhead, hne⟩ := ((parseStylesheet_allNormal h).walk x hx).head_leaves
  have hleaf : t ∈ sheet.leaves :=
    (Item.walkAll_leaves sheet.items).mem (List.mem_filterMap.mpr ⟨x, hx, hhead⟩)
  obtain ⟨start, hstart, -⟩ := htiles.start t hleaf
  exact ⟨t, start, hhead, hne, hstart⟩

theorem parseStylesheet_starts (h : parseStylesheet s source = .ok sheet) :
    sheet.walk.map Item.start? = (sheet.walk.filterMap Item.start?).map some := by
  rw [List.map_filterMap, ← List.filterMap_eq_map]
  refine List.filterMap_congr fun x hx => ?_
  obtain ⟨t, start, hhead, -, hstart⟩ := parseStylesheet_firstTexts h x hx
  have hplace : x.start? = some start := by rw [Item.start?, hhead, Option.bind_some, hstart]
  rw [Function.comp_apply, hplace, Option.map_some]

theorem parseStylesheet_pairwise_start (h : parseStylesheet s source = .ok sheet) :
    (sheet.walk.filterMap Item.start?).Pairwise (· < ·) := by
  obtain ⟨stop, htiles⟩ := parseStylesheet_tilesItems h
  have hleaves := htiles.pairwise_start.sublist (Item.walkAll_leaves sheet.items)
  rw [List.pairwise_filterMap] at hleaves ⊢
  refine hleaves.imp_of_mem fun {x y} hx hy hbefore a ha b hb => ?_
  obtain ⟨t, _, hheadX, hne, -⟩ := parseStylesheet_firstTexts h x hx
  obtain ⟨u, _, hheadY, -, -⟩ := parseStylesheet_firstTexts h y hy
  rw [Item.start?, hheadX, Option.bind_some] at ha
  rw [Item.start?, hheadY, Option.bind_some] at hb
  exact hbefore t hheadX u hheadY hne a ha b hb

/-- **The order of the walk.** The walk through a stylesheet that is read finds the item at each
address where there is one, and it finds none twice: no address is the beginning of an earlier one,
so that every item comes before those inside it. The first texts of the items start one behind the
other. -/
theorem parseStylesheet_walk (h : parseStylesheet s source = .ok sheet) :
    ∃ (addresses : List (List Nat)) (starts : List Int),
      sheet.walk.map some = addresses.map sheet.itemAt? ∧
      (∀ address, address ∈ addresses ↔ (sheet.itemAt? address).isSome) ∧
      addresses.Nodup ∧
      addresses.Pairwise (fun a b => ¬ b <+: a) ∧
      sheet.walk.map Item.start? = starts.map some ∧
      starts.Pairwise (· < ·) := by
  obtain ⟨addresses, hvisits⟩ := (parseStylesheet_allNormal h).visits
  exact ⟨addresses, sheet.walk.filterMap Item.start?, hvisits.items, hvisits.mem_iff, hvisits.nodup,
    hvisits.ordered, parseStylesheet_starts h, parseStylesheet_pairwise_start h⟩

/-- A rule with a declaration in it, and a variable whose value is a block with another one. -/
theorem blocks_walk :
    ∃ source sheet,
      source.chars = ['a', '{', 'b', ':', 'c', '}', '@', 'd', ':', '{', 'e', ':', 'f', '}'] ∧
      parseStylesheet ⟨1, true⟩ source = .ok sheet ∧
      sheet.walk.map Item.start? = [some 0, some 2, some 7, some 10] ∧
      ∃ (addresses : List (List Nat)) (starts : List Int),
        sheet.walk.map some = addresses.map sheet.itemAt? ∧
        (∀ address, address ∈ addresses ↔ (sheet.itemAt? address).isSome) ∧
        addresses.Nodup ∧
        addresses.Pairwise (fun a b => ¬ b <+: a) ∧
        sheet.walk.map Item.start? = starts.map some ∧
        starts.Pairwise (· < ·) := by
  obtain ⟨sheet, hread, hstarts⟩ : ∃ sheet,
      parseStylesheet ⟨1, true⟩
        ⟨['a', '{', 'b', ':', 'c', '}', '@', 'd', ':', '{', 'e', ':', 'f', '}'], none⟩ = .ok sheet ∧
        sheet.walk.map Item.start? = [some 0, some 2, some 7, some 10] :=
    ⟨_, rfl, rfl⟩
  exact ⟨_, sheet, rfl, hread, hstarts, parseStylesheet_walk hread⟩

end

end LessSyntax
