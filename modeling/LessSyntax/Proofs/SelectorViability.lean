import LessSyntax.Proofs.TokenViability
import LessSyntax.Proofs.WovenItem

/-!
# Selectors that can be completed

What stands before a block or before parentheses is made of names and marks only. A class begins
with a point, which a number may go on with too, but no number stands before a selector. So here
texts need only begin alike.

* `simpleSelector_viable`, `selectorGroup_viable`: the selectors of a rule.
* `mixinStep_viable`, `mixinPath_viable`, `emptyParens_viable`: what mixins are told by.
-/

namespace LessSyntax.Grammar

open Rule

variable {s : Settings} {deeper : Prop} {lineComments strict : Bool} {G : Cursor → Prop}

/-- What a selector begins with. -/
def SelectorHead (x : Char) : Prop := isNameChar x = true ∨ x ∈ selectorMarks

theorem selector_ofMark {kind : SelectorKind} {mark : Char} (hmark : mark ∈ ['#', '.']) :
    Lexeme deeper lineComments false G (Replaces false) (· = mark)
      (map (Selector.mk kind) (nameAfter [mark])) (map (Selector.mk kind) (nameAfter [mark])) := by
  have hplain : ∀ x ∈ ['#', '.'], isBlank x = false ∧ x ≠ '/' := forall_mem_of_all rfl
  have hname : Lexeme deeper lineComments false G (Replaces false) (· = mark) (nameAfter [mark])
      (nameAfter [mark]) := nameAfter_lexeme (hplain mark hmark).1 (hplain mark hmark).2 nofun
  exact hname.map

theorem mixinStep_lexeme :
    Lexeme deeper lineComments false G (Replaces false) (fun x => x = '#' ∨ x = '.') mixinStep
      mixinStep := by
  refine lexeme_choice fun r hr => ?_
  simp only [List.mem_cons, List.not_mem_nil, or_false] at hr
  rcases hr with rfl | rfl
  · exact ((selector_ofMark (by decide)).trans fun x cs l _ hread => accepts_choice_head hread).mono
      (fun _ => id) (fun _ _ => id) fun _ => .inr
  · refine ((selector_ofMark (by decide)).trans fun x cs l hx hread => ?_).mono
      (fun _ => id) (fun _ _ => id) fun _ => .inl
    subst hx
    exact accepts_choice_tail (map_refuses (nameAfter_refuses (head_cons (by decide))))
      (accepts_choice_head hread)

theorem mixinStep_viable :
    ViableIf deeper (Replaces false) (Ahead s.lineComments false fun x => x = '#' ∨ x = '.')
      (token s mixinStep) (token s mixinStep) :=
  token_viable mixinStep_lexeme

theorem mixinName_viable :
    ViableIf deeper (Replaces false) (Ahead s.lineComments false fun x => x = '#' ∨ x = '.')
      (token s mixinName) (token s mixinName) :=
  token_viable mixinStep_lexeme.map

theorem simpleSelector_viable :
    ViableIf deeper (Replaces false) (Ahead s.lineComments false SelectorHead) (simpleSelector s)
      (simpleSelector s) := by
  have hname : ∀ x, isNameChar x = true → x ∉ selectorMarks := fun x hx =>
    notMem_of_apart (apart_of_all rfl) hx
  refine token_viable (lexeme_choice fun r hr => ?_)
  simp only [List.mem_cons, List.not_mem_nil, or_false] at hr
  rcases hr with rfl | rfl | rfl | rfl
  · exact ((selector_ofMark (by decide)).trans fun x cs l _ hread => accepts_choice_head hread).mono
      (fun _ => id) (fun _ _ => id) (by rintro x rfl; exact .inr (by decide))
  · refine ((selector_ofMark (by decide)).trans fun x cs l hx hread => ?_).mono
      (fun _ => id) (fun _ _ => id) (by rintro x rfl; exact .inr (by decide))
    subst hx
    exact accepts_choice_tail (map_refuses (nameAfter_refuses (head_cons (by decide))))
      (accepts_choice_head hread)
  · refine ((Lexeme.map (g := Selector.mk .byType) name_lexeme).trans
      fun x cs l hx hread => ?_).mono (fun _ => id) (fun _ _ => id) fun _ => .inl
    have hmark : ∀ mark ∈ selectorMarks, x ≠ mark := fun mark hmark heq => hname x hx (heq ▸ hmark)
    exact accepts_choice_tail (map_refuses (nameAfter_refuses (head_cons (hmark _ (by decide)))))
      (accepts_choice_tail (map_refuses (nameAfter_refuses (head_cons (hmark _ (by decide)))))
        (accepts_choice_head hread))
  · have hstar : Lexeme deeper s.lineComments false (fun c => NoTrivia s.lineComments c.ahead)
        Anything (· = '*') (literal ['*']) (literal ['*']) :=
      lexeme_of_mark (literal_viable (by simp)) (literal_advances (by simp)) (by decide) (by decide)
        nofun
    refine ((Lexeme.map (g := Selector.mk .universal) hstar).trans fun x cs l hx hread => ?_).mono
      (fun _ => id) (fun _ _ _ => trivial) (by rintro x rfl; exact Or.inr (by decide))
    subst hx
    exact accepts_choice_tail (map_refuses (nameAfter_refuses (head_cons (by decide))))
      (accepts_choice_tail (map_refuses (nameAfter_refuses (head_cons (by decide))))
        (accepts_choice_tail (map_refuses (name_refuses (head_cons (by decide))))
          (accepts_choice_head hread)))

/-- Behind the selectors of a rule no comma stands. -/
theorem selectorGroup_viable :
    ViableIf deeper (Ahead s.lineComments false (· ≠ ',')) (Ahead s.lineComments false SelectorHead)
      (selectorGroup s) (selectorGroup s) := by
  have hcomma : (symbol s [',']).Advances := symbol_advances (by simp)
  exact viable_separated1 simpleSelector_viable
    ((symbol_viable (by decide)).mono (fun _ _ _ => trivial) fun _ _ => id)
    simpleSelector_advances.proceeds simpleSelector_advances.proceeds hcomma hcomma
    (fun _ _ => And.left) (fun _ _ (hahead : Ahead s.lineComments false (· = ',') _ _) => hahead.1)
    fun _ _ hahead => symbol_refuses_next hahead.next

theorem mixinPath_viable :
    ViableIf deeper (Ahead s.lineComments false (· = '('))
      (Ahead s.lineComments false fun x => x = '#' ∨ x = '.') (mixinPath s) (mixinPath s) := by
  have hsymbol : ViableIf deeper Anything (Ahead s.lineComments false (· = '>')) (symbol s ['>'])
      (symbol s ['>']) := symbol_viable (by decide)
  have hmark : ViableIf deeper (Ahead s.lineComments false fun x => x = '#' ∨ x = '.')
      (Replaces false) (opt (symbol s ['>'])) (opt (symbol s ['>'])) := by
    refine viable_opt (hsymbol.mono (fun _ _ => id) fun _ _ => And.left) (fun _ _ _ => trivial)
      (fun _ _ => And.left) fun _ _ hahead => symbol_refuses_next (hahead.next.mono ?_)
    rintro x (rfl | rfl) <;> decide
  have hjoints : ViableIf deeper (Ahead s.lineComments false (· = '(')) (Replaces false)
      (many (mixinJoint s)) (many (mixinJoint s)) :=
    viable_many (viable_preceded hmark mixinStep_viable) mixinJoint_advances mixinJoint_advances
      (fun _ _ => And.left) (fun _ _ => id) fun _ _ hahead =>
      mixinJoint_refuses (hahead.next.mono (by rintro x rfl; decide))
  exact viable_map (viable_both mixinStep_viable hjoints)

theorem emptyParens_viable :
    ViableIf deeper Anything (Ahead s.lineComments strict (· = '(')) (emptyParens s)
      (emptyParens s) := by
  have hclose : ViableIf deeper Anything (Ahead s.lineComments strict (· = ')')) (symbol s [')'])
      (symbol s [')']) := symbol_viable (by decide)
  exact viable_both (symbol_viable (by decide)) (hclose.mono (fun _ _ => id) fun _ _ _ => trivial)

end LessSyntax.Grammar
