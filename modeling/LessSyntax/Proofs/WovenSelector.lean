import LessSyntax.Proofs.Tokens
import LessSyntax.Tree.Same

/-!
# Selectors from tokens

A selector is one token. The selectors of a rule stand between commas, and the steps of the name of
a mixin between the marks `>`, each of them a token of its own.

* `Selector.Printable`, `Selector.NamesMixin`: the selectors that the grammar reads.
* `accepts_selectorGroup`, `accepts_mixinPath`: groups and paths are read from their tokens.
-/

namespace LessSyntax

open Grammar Rule

namespace Selector

/-- The name of the selector is a name, or the mark of the universal selector. -/
def Printable (selector : Selector) : Prop :=
  match selector.kind with
  | .universal => selector.name.chars = ['*']
  | _ => IsName selector.name.chars

/-- The selector is one that a mixin may be named by. -/
def NamesMixin (selector : Selector) : Prop :=
  (selector.kind = .byId ∨ selector.kind = .byClass) ∧ IsName selector.name.chars

theorem NamesMixin.printable {selector : Selector} (h : selector.NamesMixin) :
    selector.Printable := by
  obtain ⟨kind, name⟩ := selector
  obtain ⟨rfl | rfl, his⟩ := h
  · exact his
  · exact his

theorem same_iff {a b : Selector} :
    a.same b = true ↔ a.kind = b.kind ∧ a.name.chars = b.name.chars := by
  rw [Selector.same, Bool.and_eq_true, beq_iff_eq, Text.same_iff]

theorem sameAll_cons {a b : Selector} {as bs : List Selector} (h : a.same b = true)
    (hs : Selector.sameAll as bs = true) : Selector.sameAll (a :: as) (b :: bs) = true := by
  rw [Selector.sameAll, h, hs]
  rfl

end Selector

namespace Grammar

variable {s : Settings} {selector first : Selector} {others : List Selector} {k : List Char}
  {expected : Option String}

/-! ## What a selector begins with -/

/-- The marks that selectors begin with. -/
def selectorMarks : List Char := ['#', '.', '*']

/-- The first character of a selector tells its kind. -/
def HeadOf (selector : Selector) (x : Char) : Prop :=
  match selector.kind with
  | .byId => x = '#'
  | .byClass => x = '.'
  | .byType => isNameChar x = true
  | .universal => x = '*'

theorem selector_heads (h : selector.Printable) : Heads (HeadOf selector) selector.print := by
  obtain ⟨kind, name⟩ := selector
  cases kind with
  | byId => exact ⟨'#', name.chars, rfl, rfl, by decide, rfl⟩
  | byClass => exact ⟨'.', name.chars, rfl, rfl, by decide, rfl⟩
  | byType => exact heads_name h
  | universal => exact ⟨'*', [], h, rfl, by decide, rfl⟩

/-! ## One selector -/

theorem accepts_selector (h : selector.Printable) (hk : ∀ x ∈ k.head?, isNameChar x = false) :
    (choice [idSelector, classSelector, typeSelector, universalSelector] expected).Accepts
      selector.print k fun other => selector.same other = true := by
  obtain ⟨kind, name⟩ := selector
  have hsame : ∀ {t : Text}, t.chars = name.chars →
      Selector.same ⟨kind, name⟩ ⟨kind, t⟩ = true :=
    fun ht => Selector.same_iff.mpr ⟨rfl, ht.symm⟩
  have hid : ∀ {l : List Char}, (∀ x ∈ l.head?, x ≠ '#') → idSelector.Refuses l :=
    fun hl => map_refuses (nameAfter_refuses hl)
  have hclass : ∀ {l : List Char}, (∀ x ∈ l.head?, x ≠ '.') → classSelector.Refuses l :=
    fun hl => map_refuses (nameAfter_refuses hl)
  cases kind with
  | byId =>
    exact accepts_choice_head (accepts_map (accepts_mono (accepts_nameAfter h hk) fun _ => hsame))
  | byClass =>
    exact accepts_choice_tail (hid (head_cons (by decide))) (accepts_choice_head
      (accepts_map (accepts_mono (accepts_nameAfter h hk) fun _ => hsame)))
  | byType =>
    obtain ⟨x, l, hname, hx⟩ := IsName.cons h
    have hhead : ∀ y ∈ (Selector.print ⟨.byType, name⟩ ++ k).head?, y ≠ '#' ∧ y ≠ '.' := by
      rw [Selector.print, hname]
      exact head_cons ⟨ne_of_class hx rfl, ne_of_class hx rfl⟩
    exact accepts_choice_tail (hid fun y hy => (hhead y hy).1)
      (accepts_choice_tail (hclass fun y hy => (hhead y hy).2) (accepts_choice_head
        (accepts_map (accepts_mono (accepts_name h hk) fun _ => hsame))))
  | universal =>
    have hstar : name.chars = ['*'] := h
    rw [Selector.print, hstar]
    exact accepts_choice_tail (hid (head_cons (by decide))) (accepts_choice_tail
      (hclass (head_cons (by decide))) (accepts_choice_tail
        (map_refuses (name_refuses (head_cons rfl))) (accepts_choice_head (accepts_map
          (accepts_mono (accepts_literal (by simp)) fun t ht => hsame (ht.trans hstar.symm))))))

theorem mixinStep_refuses (h : ∀ x ∈ k.head?, x ≠ '#' ∧ x ≠ '.') : mixinStep.Refuses k := by
  refine choice_refuses fun r hr => ?_
  simp only [List.mem_cons, List.not_mem_nil, or_false] at hr
  rcases hr with rfl | rfl
  · exact map_refuses (nameAfter_refuses fun x hx => (h x hx).2)
  · exact map_refuses (nameAfter_refuses fun x hx => (h x hx).1)

theorem accepts_mixinStep (h : selector.NamesMixin) (hk : ∀ x ∈ k.head?, isNameChar x = false) :
    mixinStep.Accepts selector.print k fun other => selector.same other = true := by
  obtain ⟨kind, name⟩ := selector
  obtain ⟨hkind, his⟩ := h
  have hsame : ∀ {t : Text}, t.chars = name.chars →
      Selector.same ⟨kind, name⟩ ⟨kind, t⟩ = true :=
    fun ht => Selector.same_iff.mpr ⟨rfl, ht.symm⟩
  obtain rfl | rfl : kind = .byId ∨ kind = .byClass := hkind
  · exact accepts_choice_tail (map_refuses (nameAfter_refuses (head_cons (by decide))))
      (accepts_choice_head (accepts_map (accepts_mono (accepts_nameAfter his hk) fun _ => hsame)))
  · exact accepts_choice_head (accepts_map (accepts_mono (accepts_nameAfter his hk) fun _ => hsame))

/-! ## Groups and paths -/

/-- What may stand behind a selector, with trivia between. -/
def selectorEnds : List Char := [',', '>', '{', '(']

/-- What may stand behind the name of a mixin or a group of selectors. -/
def groupEnds : List Char := [',', '{', '(']

theorem selectorEnds_subset : selectorEnds ⊆ tokenMarks := by decide

theorem groupEnds_subset : groupEnds ⊆ selectorEnds := by decide

theorem isNameChar_selectorEnds : ∀ x ∈ selectorEnds, isNameChar x = false := apart_of_all rfl

theorem groupEnds_ne {x y : Char} (hx : x ∈ groupEnds) (hy : y ∉ groupEnds) : x ≠ y := by
  rintro rfl
  exact hy hx

theorem Next.name_stops {lineComments : Bool} (h : Next lineComments (· ∈ selectorEnds) k) :
    ∀ x ∈ k.head?, isNameChar x = false :=
  Next.stops isNameChar_boundary (h.mono isNameChar_selectorEnds)

theorem selectorTokens_eq (mark : List Char) (selectors : OneOrMore Selector) :
    (selectors.toList.map Selector.print).intersperse mark
      = [selectors.first.print] ++ selectors.others.flatMap fun other => [mark, other.print] := by
  rw [OneOrMore.toList, List.map_cons, intersperse_cons, List.flatMap_map]
  rfl

/-- Each selector stands behind a mark, and what stands behind it ends its name. -/
theorem spells_selectors {lineComments : Bool} {mark : Char} (hmark : mark ∈ selectorEnds)
    (hk : Next lineComments (· ∈ selectorEnds) k) {text : List Char}
    (h : Woven lineComments (others.flatMap fun other => [[mark], other.print]) text k) :
    Spells (fun other a l => other ∈ others ∧ Woven lineComments [[mark], other.print] a l ∧
        Next lineComments (· ∈ selectorEnds) l) others text k ∧
      Next lineComments (· ∈ selectorEnds) (text ++ k) := by
  exact spells_of_woven (fun _ _ _ _ h => woven_next_mark h (selectorEnds_subset hmark) hmark) hk h

theorem accepts_selectorGroup {group : SelectorGroup} (h : ∀ other ∈ group.toList, other.Printable)
    (hk : Next s.lineComments (fun x => x ∈ selectorEnds ∧ x ≠ ',') k) :
    (selectorGroup s).AcceptsWoven s.lineComments
      ((group.toList.map Selector.print).intersperse [',']) k
      fun found => group.sameSelectors found = true := by
  intro text hwoven
  rw [selectorTokens_eq] at hwoven
  obtain ⟨a, b, rfl, ha, hb⟩ := woven_append hwoven
  have hselector : ∀ {other : Selector} {l : List Char}, other ∈ group.toList →
      Next s.lineComments (· ∈ selectorEnds) l →
      (simpleSelector s).AcceptsWoven s.lineComments [other.print] l
        fun found => other.same found = true := fun hmem hl =>
    accepts_woven_token (selector_heads (h _ hmem)) (accepts_selector (h _ hmem) hl.name_stops)
  obtain ⟨hspells, hbehind⟩ := spells_selectors (by decide) (hk.mono fun _ hx => hx.1) hb
  refine accepts_separated1 (S := fun as bs => Selector.sameAll as bs = true) rfl
    (fun _ _ _ _ => Selector.sameAll_cons) (hselector List.mem_cons_self hbehind a ha)
    (hspells.mono ?_) (symbol_refuses_next (hk.mono fun _ hx => hx.2))
    fun _ _ hsame hall => Selector.sameAll_cons hsame hall
  intro other c l ⟨hmem, hc, hl⟩
  obtain ⟨m, d, rfl, hm, hd⟩ := woven_append (t := [[',']]) hc
  exact ⟨m, d, rfl, woven_ne_nil hm (by simp), accepts_woven_symbol (by decide) m hm,
    hselector (List.mem_cons_of_mem _ hmem) hl d hd⟩

/-- Behind the last step no further one is read. -/
theorem mixinJoint_refuses (hk : Next s.lineComments (· ∈ groupEnds) k) :
    (mixinJoint s).Refuses k := by
  have hmark : (symbol s ['>']).Refuses k :=
    symbol_refuses_next (hk.mono fun _ hx => groupEnds_ne hx (by decide))
  have hstep : (token s mixinStep).Refuses k :=
    token_refuses_next (fun _ => mixinStep_refuses)
      (hk.mono fun _ hx => ⟨groupEnds_ne hx (by decide), groupEnds_ne hx (by decide)⟩)
  exact map_refuses (both_refuses (accepts_opt_none hmark) hstep)

theorem accepts_mixinPath {path : MixinPath} (h : ∀ step ∈ path.toList, step.NamesMixin)
    (hk : Next s.lineComments (· ∈ groupEnds) k) :
    (mixinPath s).AcceptsWoven s.lineComments ((path.toList.map Selector.print).intersperse ['>']) k
      fun found => path.sameSelectors found = true := by
  intro text hwoven
  rw [selectorTokens_eq] at hwoven
  obtain ⟨a, b, rfl, ha, hb⟩ := woven_append hwoven
  have hstep : ∀ {step : Selector} {l : List Char}, step ∈ path.toList →
      Next s.lineComments (· ∈ selectorEnds) l →
      (token s mixinStep).AcceptsWoven s.lineComments [step.print] l
        fun found => step.same found = true := fun hmem hl =>
    accepts_woven_token (selector_heads (h _ hmem).printable)
      (accepts_mixinStep (h _ hmem) hl.name_stops)
  obtain ⟨hspells, hbehind⟩ := spells_selectors (by decide)
    (hk.mono fun _ hx => groupEnds_subset hx) hb
  have hmore : (many (mixinJoint s)).Accepts b k
      fun found => Selector.sameAll path.others found = true := by
    refine accepts_many (S := fun as bs => Selector.sameAll as bs = true) rfl
      (fun _ _ _ _ => Selector.sameAll_cons) (hspells.mono ?_) (mixinJoint_refuses hk)
    intro step c l ⟨hmem, hc, hl⟩
    obtain ⟨m, d, rfl, hm, hd⟩ := woven_append (t := [['>']]) hc
    refine ⟨List.append_ne_nil_of_left_ne_nil (woven_ne_nil hm (by simp)) d, ?_⟩
    exact accepts_preceded (accepts_opt (Q := fun _ => True)
      (accepts_woven_symbol (by decide) m hm))
      (hstep (List.mem_cons_of_mem _ hmem) hl d hd)
  exact accepts_map (accepts_mono (accepts_both (hstep List.mem_cons_self hbehind a ha) hmore)
    fun _ hfound => Selector.sameAll_cons hfound.1 hfound.2)

end Grammar

end LessSyntax
