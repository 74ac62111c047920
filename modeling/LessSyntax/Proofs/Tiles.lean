import LessSyntax.Proofs.ItemReading
import LessSyntax.Proofs.WholeSource

/-!
# The texts of a tree tile its source

The texts of a stylesheet, in the order of its fields, stand one behind the other in the source that
it was read from. Between them, before the first and behind the last stand only trivia, marks and
the few words that the tree keeps in another form.

* `Stylesheet.leaves`: the texts of a stylesheet.
* `Gap`: what may stand between two texts.
* `Tiles`: texts and gaps take turns from one place of a source to another.
* `Covers`: the texts that a rule reads and the gaps between them, which put together are tiles.
-/

namespace LessSyntax

open Grammar

/-! ## Texts -/

mutual

/-- The texts of a value; those of a string with interpolations are its segments and the names
between them. -/
def Value.leaves : Value → List Text
  | .string text _ => [text]
  | .interpolated first parts _ => first :: parts.flatMap fun part => [part.1.name, part.2]
  | .number value unit => value :: unit.toList
  | .color hex => [hex]
  | .identifier name => [name]
  | .variable name => [name]
  | .property name => [name]
  | .call name arguments => name :: Value.leavesAll arguments
  | .url address => [address]
  | .list values _ => Value.leavesAll values
  | .ruleset block => Item.leavesAll block

def Value.leavesAll : List Value → List Text
  | [] => []
  | v :: vs => Value.leaves v ++ Value.leavesAll vs

def Item.leaves : Item → List Text
  | .declaration name value _ => name :: Value.leaves value
  | .rule selectors block => selectors.toList.map Selector.name ++ Item.leavesAll block
  | .mixin path block => path.toList.map Selector.name ++ Item.leavesAll block
  | .mixinCall path => path.toList.map Selector.name
  | .variable name value => name :: Value.leaves value
  | .variableCall name => [name]

def Item.leavesAll : List Item → List Text
  | [] => []
  | x :: xs => Item.leaves x ++ Item.leavesAll xs

end

def Stylesheet.leaves (sheet : Stylesheet) : List Text := Item.leavesAll sheet.items

theorem Value.leavesAll_eq (vs : List Value) : Value.leavesAll vs = vs.flatMap Value.leaves := by
  induction vs with
  | nil => rfl
  | cons v vs ih => rw [Value.leavesAll, ih, List.flatMap_cons]

theorem Item.leavesAll_eq (xs : List Item) : Item.leavesAll xs = xs.flatMap Item.leaves := by
  induction xs with
  | nil => rfl
  | cons x xs ih => rw [Item.leavesAll, ih, List.flatMap_cons]

theorem leaves_collapse (separator : Separator) (vs : OneOrMore Value) :
    (collapse separator vs).leaves = vs.toList.flatMap Value.leaves := by
  obtain ⟨first, others⟩ := vs
  cases others with
  | nil => exact (List.append_nil _).symm
  | cons v vs => exact Value.leavesAll_eq _

/-! ## Gaps -/

/-- The marks that stand between the texts. -/
def gapMarks : List Char :=
  ['{', '}', '(', ')', ':', ';', ',', '/', '>', '@', '#', '.', '$', '\'', '"']

/-- A piece of what stands between two texts, before what follows it: a piece of trivia, a mark,
the mark of an important value, or what an address begins with. -/
inductive GapPiece (lineComments : Bool) : List Char → List Char → Prop
  | trivia {u k : List Char} (h : TriviaPiece lineComments u k) : GapPiece lineComments u k
  | mark {x : Char} {k : List Char} (hx : x ∈ gapMarks) : GapPiece lineComments [x] k
  | important {w word k : List Char} (hrun : TriviaRun lineComments w (word ++ k))
    (his : isLowered importantWord word = true) : GapPiece lineComments ('!' :: w ++ word) k
  | url {callee k : List Char} (h : CallsUrl callee) : GapPiece lineComments (callee ++ ['(']) k

/-- Any number of pieces, before what follows them. -/
inductive Gap (lineComments : Bool) : List Char → List Char → Prop
  | nil {k : List Char} : Gap lineComments [] k
  | cons {u g k : List Char} (hpiece : GapPiece lineComments u (g ++ k))
    (hgap : Gap lineComments g k) : Gap lineComments (u ++ g) k

variable {lineComments : Bool} {g l k w u : List Char}

theorem gap_append (hg : Gap lineComments g (l ++ k)) (hl : Gap lineComments l k) :
    Gap lineComments (g ++ l) k := by
  generalize hm : l ++ k = m at hg
  induction hg with
  | nil => exact hl
  | @cons u g m hpiece _ ih =>
    rw [List.append_assoc]
    refine .cons ?_ (ih hm)
    rw [List.append_assoc, hm]
    exact hpiece

theorem gap_piece (h : GapPiece lineComments u k) : Gap lineComments u k := by
  have hgap := Gap.cons (g := []) h .nil
  rw [List.append_nil] at hgap
  exact hgap

theorem gap_of_run (h : TriviaRun lineComments w k) : Gap lineComments w k := by
  induction h with
  | nil => exact .nil
  | cons hpiece _ ih => exact .cons (.trivia hpiece) ih

/-! ## Tiles -/

/-- From the one place of the source to the other, gaps and the given texts take turns, beginning
and ending with a gap. -/
inductive Tiles (lineComments : Bool) (source : List Char) : Nat → List Text → Nat → Prop
  | last {i j : Nat} (hij : i ≤ j) (hj : j ≤ source.length)
    (hgap : Gap lineComments (source.extract i j) (source.drop j)) :
    Tiles lineComments source i [] j
  | cons {i start stop j : Nat} {ts : List Text} (hstart : i ≤ start) (hstop : start ≤ stop)
    (hend : stop ≤ source.length)
    (hgap : Gap lineComments (source.extract i start) (source.drop start))
    (htiles : Tiles lineComments source stop ts j) :
    Tiles lineComments source i (Text.borrowed source start stop :: ts) j

variable {source : List Char} {i j m : Nat} {ts us : List Text}

theorem extract_append_drop (source : List Char) (hij : i ≤ j) :
    source.extract i j ++ source.drop j = source.drop i := by
  have hsplit := List.take_append_drop (j - i) (source.drop i)
  rw [List.drop_drop, Nat.add_sub_cancel' hij] at hsplit
  exact hsplit

theorem extract_append_extract (source : List Char) (hij : i ≤ j) (hjm : j ≤ m) :
    source.extract i j ++ source.extract j m = source.extract i m := by
  have hlength : m - i = (j - i) + (m - j) := by omega
  show _ = (source.drop i).take (m - i)
  rw [hlength, List.take_add, List.drop_drop, Nat.add_sub_cancel' hij]

/-- A gap may be put before the first text. -/
theorem Tiles.gap_before (hij : i ≤ j)
    (hgap : Gap lineComments (source.extract i j) (source.drop j))
    (h : Tiles lineComments source j ts m) : Tiles lineComments source i ts m := by
  have hjoined : ∀ {stop : Nat}, j ≤ stop →
      Gap lineComments (source.extract j stop) (source.drop stop) →
      Gap lineComments (source.extract i stop) (source.drop stop) := by
    intro stop hle hgap'
    rw [← extract_append_extract source hij hle]
    rw [← extract_append_drop source hle] at hgap
    exact gap_append hgap hgap'
  cases h with
  | last hle hj hgap' => exact .last (Nat.le_trans hij hle) hj (hjoined hle hgap')
  | cons hstart hstop hend hgap' htiles =>
    exact .cons (Nat.le_trans hij hstart) hstop hend (hjoined hstart hgap') htiles

theorem Tiles.append (hts : Tiles lineComments source i ts j)
    (hus : Tiles lineComments source j us m) : Tiles lineComments source i (ts ++ us) m := by
  induction hts with
  | last hij _ hgap => exact hus.gap_before hij hgap
  | cons hstart hstop hend hgap _ ih => exact .cons hstart hstop hend hgap (ih hus)

/-! ## What a cursor covers -/

/-- Between the two cursors gaps and the given texts take turns. -/
structure Covers (lineComments : Bool) (c : Cursor) (ts : List Text) (rest : Cursor) : Prop where
  within : rest.Within
  text : rest.text = c.text
  tiles : Tiles lineComments c.text c.pos.toNat ts rest.pos.toNat

section

variable {c mid rest stop : Cursor} {t : List Char}

theorem Cursor.Reads.extract (hc : c.Within) (h : c.Reads t rest) :
    c.pos.toNat ≤ rest.pos.toNat ∧ rest.pos.toNat ≤ c.text.length ∧
      c.text.extract c.pos.toNat rest.pos.toNat = t ∧ c.text.drop rest.pos.toNat = rest.ahead := by
  have hrest := h.within hc
  have hpos := h.pos
  obtain ⟨hstart, -⟩ := hc
  have hahead : c.text.drop c.pos.toNat = t ++ rest.ahead := by
    rw [← h.ahead, c.ahead_eq, fromStart_of_nonneg hstart]
  have hlength : rest.pos.toNat - c.pos.toNat = t.length := by omega
  refine ⟨by omega, ?_, ?_, ?_⟩
  · have hstop := hrest.2
    rw [rest.size_eq, h.text] at hstop
    omega
  · show (c.text.drop c.pos.toNat).take (rest.pos.toNat - c.pos.toNat) = t
    rw [hahead, hlength, List.take_left]
  · rw [rest.ahead_eq, fromStart_of_nonneg hrest.1, h.text]

theorem covers_gap (hc : c.Within) (hreads : c.Reads g rest)
    (hgap : Gap lineComments g rest.ahead) : Covers lineComments c [] rest := by
  obtain ⟨hle, hend, hextract, hdrop⟩ := hreads.extract hc
  refine ⟨hreads.within hc, hreads.text, .last hle hend ?_⟩
  rw [hextract, hdrop]
  exact hgap

theorem covers_refl (hc : c.Within) : Covers lineComments c [] c :=
  covers_gap hc (.refl c) .nil

theorem covers_leaf (lineComments : Bool) (hc : c.Within) (hreads : c.Reads t rest) :
    Covers lineComments c [c.next t.length] rest := by
  obtain ⟨hle, hend, -, -⟩ := hreads.extract hc
  have hrest := hreads.within hc
  have hpos := hreads.pos
  have hnone : ∀ i, i ≤ c.text.length → Tiles lineComments c.text i [] i := by
    intro i hi
    refine .last (Nat.le_refl i) hi ?_
    rw [show c.text.extract i i = [] by simp]
    exact .nil
  have hnext : c.next t.length = Text.borrowed c.text c.pos.toNat rest.pos.toNat := by
    rw [Cursor.next, Cursor.slice_eq, ← hpos, Int.toNat_of_nonneg hc.1, Int.toNat_of_nonneg hrest.1]
  refine ⟨hrest, hreads.text, ?_⟩
  rw [hnext]
  refine .cons (Nat.le_refl _) hle hend ?_ (hnone _ hend)
  rw [show c.text.extract c.pos.toNat c.pos.toNat = [] by simp]
  exact .nil

theorem Covers.trans (h₁ : Covers lineComments c ts mid) (h₂ : Covers lineComments mid us rest) :
    Covers lineComments c (ts ++ us) rest := by
  have htiles := h₂.tiles
  rw [h₁.text] at htiles
  exact ⟨h₂.within, h₂.text.trans h₁.text, h₁.tiles.append htiles⟩

/-- A gap behind the texts. -/
theorem Covers.gap_after (h₁ : Covers lineComments c ts mid)
    (h₂ : Covers lineComments mid [] rest) : Covers lineComments c ts rest := by
  have h := h₁.trans h₂
  rwa [List.append_nil] at h

/-- What is covered inside a block or a call is covered around it. -/
theorem Covers.of_nested (h : Covers lineComments c.nested ts rest) (depth : Int) :
    Covers lineComments c ts (rest.withDepth depth) :=
  ⟨h.within, h.text, h.tiles⟩

end

end LessSyntax
