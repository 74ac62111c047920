import LessSyntax.Proofs.WovenSelector

/-!
# Paths with and without marks

The steps of the name of a mixin may stand right behind one another, with trivia between them, or
with a mark `>`. Behind each step an optional mark and a further step are tried together. So a mark
is read if a step follows, and is given back if none does: before the parentheses of a call the path
ends right behind its last step, wherever trivia or a mark that leads nowhere stands in between.

* `IsJoiner`: what may stand between two steps.
* `accepts_joint`, `joiner_refuses`: a joiner with a step behind it, and one without.
* `mixinPath_joined`: the path is read up to its last step.
-/

namespace LessSyntax.Grammar

open Rule

/-! ## Joiners -/

/-- Blanks and comments that are all closed, so that they are trivia whatever follows. -/
def IsTrivia (lineComments : Bool) (w : List Char) : Prop := ∀ k, TriviaRun lineComments w k

/-- What may stand between two steps: trivia, or a mark with trivia on either side. -/
inductive IsJoiner (lineComments : Bool) : List Char → Prop
  | trivia {w : List Char} (hw : IsTrivia lineComments w) : IsJoiner lineComments w
  | mark {w u : List Char} (hw : IsTrivia lineComments w) (hu : IsTrivia lineComments u) :
    IsJoiner lineComments (w ++ '>' :: u)

/-- What stands behind a step, with trivia between: the next step, a mark, or parentheses. -/
def pathMarks : List Char := ['#', '.', '>', '(']

variable {s : Settings} {lineComments : Bool} {w joiner k l : List Char} {step : Selector}
  {p : Char → Prop}

theorem isNameChar_pathMarks : ∀ x ∈ pathMarks, isNameChar x = false := apart_of_all rfl

theorem heads_step (h : step.NamesMixin) : Heads (· ∈ ['#', '.']) step.print := by
  refine (selector_heads h.printable).mono fun x hx => ?_
  obtain ⟨kind, name⟩ := step
  obtain ⟨rfl | rfl, -⟩ := h
  · obtain rfl : x = '#' := hx
    decide
  · obtain rfl : x = '.' := hx
    decide

theorem next_of_heads (hw : IsTrivia lineComments w) {token : List Char} (h : Heads p token) :
    Next lineComments p (w ++ (token ++ l)) := by
  refine ⟨w, token ++ l, rfl, hw _, h.noTrivia l, ?_⟩
  obtain ⟨x, m, rfl, -, -, hp⟩ := h
  exact head_cons hp

theorem heads_greater : Heads (· = '>') ['>'] := heads_mark (by decide) rfl

theorem heads_paren : Heads (· = '(') ['('] := heads_mark (by decide) rfl

/-- Behind a joiner stands what stands behind its trivia, or the mark. -/
theorem IsJoiner.next (h : IsJoiner lineComments joiner) {token : List Char}
    (htoken : Heads (· ∈ pathMarks) token) :
    Next lineComments (· ∈ pathMarks) (joiner ++ (token ++ l)) := by
  cases h with
  | trivia hw => exact next_of_heads hw htoken
  | @mark w u hw _ =>
    rw [List.append_assoc]
    have hmark : Heads (· ∈ pathMarks) ['>'] := heads_greater.mono fun x hx => by
      subst hx
      decide
    have hnext : Next lineComments (· ∈ pathMarks) (w ++ (['>'] ++ (u ++ (token ++ l)))) :=
      next_of_heads hw hmark
    exact hnext

/-- The name of a step ends before a joiner. -/
theorem IsJoiner.name_stops (h : IsJoiner lineComments joiner) {token : List Char}
    (htoken : Heads (· ∈ pathMarks) token) :
    ∀ x ∈ (joiner ++ (token ++ l)).head?, isNameChar x = false :=
  Next.stops isNameChar_boundary ((h.next htoken).mono isNameChar_pathMarks)

/-! ## Steps behind joiners -/

theorem accepts_tokenStep (hw : IsTrivia s.lineComments w) (h : step.NamesMixin)
    (hk : ∀ x ∈ k.head?, isNameChar x = false) :
    (token s mixinStep).Accepts (w ++ step.print) k fun found => step.same found = true :=
  accepts_token (hw _) ((heads_step h).noTrivia k) (accepts_mixinStep h hk)

theorem accepts_optMark (hw : IsTrivia s.lineComments w) (k : List Char) :
    (opt (symbol s ['>'])).Accepts (w ++ ['>']) k fun _ => True :=
  accepts_opt (Q := fun _ => True)
    (accepts_symbol (hw _) (heads_greater.noTrivia k) (by simp))

/-- A joiner and the step behind it are read together. -/
theorem accepts_joint (hjoiner : IsJoiner s.lineComments joiner) (h : step.NamesMixin)
    (hk : ∀ x ∈ k.head?, isNameChar x = false) :
    (mixinJoint s).Accepts (joiner ++ step.print) k fun found => step.same found = true := by
  cases hjoiner with
  | trivia hw =>
    have hnone : (symbol s ['>']).Refuses (joiner ++ (step.print ++ k)) :=
      symbol_refuses_next (next_of_heads hw ((heads_step h).mono fun x hx => by
        rintro rfl
        exact absurd hx (by decide)))
    rw [← List.append_assoc] at hnone
    have hstep : (mixinJoint s).Accepts ([] ++ (joiner ++ step.print)) k
        fun found => step.same found = true :=
      accepts_preceded (accepts_opt_none hnone) (accepts_tokenStep hw h hk)
    exact hstep
  | @mark w u hw hu =>
    have hsplit : w ++ '>' :: u ++ step.print = (w ++ ['>']) ++ (u ++ step.print) := by simp
    rw [hsplit]
    exact accepts_preceded (accepts_optMark hw _) (accepts_tokenStep hu h hk)

/-- A joiner without a step behind it is left where it stands. -/
theorem joiner_refuses (hjoiner : IsJoiner s.lineComments joiner) :
    (mixinJoint s).Refuses (joiner ++ '(' :: k) := by
  have hparen {w : List Char} (hw : IsTrivia s.lineComments w) :
      Next s.lineComments (· = '(') (w ++ '(' :: k) := next_of_heads hw heads_paren
  cases hjoiner with
  | trivia hw =>
    exact mixinJoint_refuses ((hparen hw).mono fun x hx => by
      subst hx
      decide)
  | @mark w u hw hu =>
    have hstep : (token s mixinStep).Refuses (u ++ '(' :: k) :=
      token_refuses_next (fun _ => mixinStep_refuses) ((hparen hu).mono fun x hx => by
        subst hx
        decide)
    have hsplit : w ++ '>' :: u ++ '(' :: k = (w ++ ['>']) ++ (u ++ '(' :: k) := by simp
    rw [hsplit]
    exact map_refuses (both_refuses (accepts_optMark hw _) hstep)

/-! ## Paths -/

/-- A joiner and the step behind it. -/
def printJoined (joined : List Char × Selector) : List Char := joined.1 ++ joined.2.print

/-- What stands behind a step ends its name: a joiner with a step or with parentheses behind it. -/
theorem joined_stops {others : List (List Char × Selector)}
    (hothers : ∀ joined ∈ others, IsJoiner lineComments joined.1 ∧ joined.2.NamesMixin)
    (hjoiner : IsJoiner lineComments joiner) :
    ∀ x ∈ (others.flatMap printJoined ++ (joiner ++ '(' :: k)).head?, isNameChar x = false := by
  cases others with
  | nil => exact hjoiner.name_stops (heads_paren.mono fun x hx => by subst hx; decide)
  | cons joined others =>
    obtain ⟨hfirst, hstep⟩ := hothers joined List.mem_cons_self
    rw [List.flatMap_cons, printJoined, List.append_assoc, List.append_assoc]
    exact hfirst.name_stops ((heads_step hstep).mono fun x hx =>
      List.subset_append_left ['#', '.'] ['>', '('] hx)

/-- **Paths of mixins.** Steps stand behind one another, each but the first behind a joiner, with
trivia before the first and a joiner and a parenthesis behind the last. They are read as the path of
these steps, and what is read ends right behind the last of them. -/
theorem mixinPath_joined {s : Settings} {w joiner k : List Char} {first : Selector}
    {others : List (List Char × Selector)} (hw : IsTrivia s.lineComments w)
    (hfirst : first.NamesMixin)
    (hothers : ∀ joined ∈ others, IsJoiner s.lineComments joined.1 ∧ joined.2.NamesMixin)
    (hjoiner : IsJoiner s.lineComments joiner) {c : Cursor} (hc : c.Within)
    (hahead : c.ahead = w ++ first.print ++ others.flatMap printJoined ++ (joiner ++ '(' :: k)) :
    ∃ path, mixinPath s c =
        .matched path (c.advance (w ++ first.print ++ others.flatMap printJoined).length) ∧
      OneOrMore.sameSelectors ⟨first, others.map Prod.snd⟩ path = true := by
  have hstops := joined_stops (k := k) hothers hjoiner
  have hspells : Spells
      (Repeats (mixinJoint s) fun joined found => Selector.same joined.2 found = true) others
      (others.flatMap printJoined) (joiner ++ '(' :: k) := by
    refine spells_flatMap fun joined hmem rest hrest => ?_
    obtain ⟨hbefore, hstep⟩ := hothers joined hmem
    refine ⟨List.append_ne_nil_of_right_ne_nil _ (heads_step hstep).ne_nil, ?_⟩
    have hlater := fun other hother => hothers other (hrest hother)
    exact accepts_joint hbefore hstep (joined_stops hlater hjoiner)
  have hmore : (many (mixinJoint s)).Accepts (others.flatMap printJoined) (joiner ++ '(' :: k)
      fun found => Selector.sameAll (others.map Prod.snd) found = true :=
    accepts_many (S := fun joined found => Selector.sameAll (joined.map Prod.snd) found = true) rfl
      (fun _ _ _ _ => Selector.sameAll_cons) hspells (joiner_refuses hjoiner)
  have hpath : (mixinPath s).Accepts (w ++ first.print ++ others.flatMap printJoined)
      (joiner ++ '(' :: k)
      fun path => OneOrMore.sameSelectors ⟨first, others.map Prod.snd⟩ path = true :=
    accepts_map (accepts_mono (accepts_both (accepts_tokenStep hw hfirst hstops) hmore)
      fun _ hfound => Selector.sameAll_cons hfound.1 hfound.2)
  exact hpath c hc hahead

/-- Three steps, the second right behind the first and the third behind a comment and a mark; a
dangling mark is left. -/
theorem mixinPath_dangling :
    ∃ c path, c.Within ∧
      c.ahead = [' ', '#', 'a', '.', 'b', '/', '*', '*', '/', '>', '.', 'c', ' ', '>', '('] ∧
      mixinPath ⟨1, true⟩ c = .matched path (c.advance 12) ∧
      OneOrMore.sameSelectors ⟨⟨.byId, .owned ['a']⟩,
        [⟨.byClass, .owned ['b']⟩, ⟨.byClass, .owned ['c']⟩]⟩ path = true := by
  have hnone : IsTrivia true [] := fun _ => .nil
  have hblank : IsTrivia true [' '] := fun _ => triviaRun_blanks (by simp [isBlank])
  have hcomment : IsTrivia true ['/', '*', '*', '/'] := fun _ =>
    triviaRun_piece (@TriviaPiece.block _ [] _ (by decide))
  have hfirst : Selector.NamesMixin ⟨.byId, .owned ['a']⟩ := ⟨.inl rfl, rfl⟩
  have hothers : ∀ joined ∈ [(([] : List Char), Selector.mk .byClass (.owned ['b'])),
      (['/', '*', '*', '/', '>'], Selector.mk .byClass (.owned ['c']))],
      IsJoiner true joined.1 ∧ joined.2.NamesMixin := by
    simp only [List.forall_mem_cons, List.not_mem_nil, false_imp_iff, implies_true, and_true]
    exact ⟨⟨.trivia hnone, .inr rfl, rfl⟩, .mark hcomment hnone, .inr rfl, rfl⟩
  have hjoiner : IsJoiner true ([' '] ++ '>' :: []) := .mark hblank hnone
  obtain ⟨path, hread, hsame⟩ := mixinPath_joined (s := ⟨1, true⟩) (k := []) hblank hfirst hothers
    hjoiner (Cursor.within_ofText
      [' ', '#', 'a', '.', 'b', '/', '*', '*', '/', '>', '.', 'c', ' ', '>', '(']) rfl
  exact ⟨_, path, Cursor.within_ofText _, rfl, hread, hsame⟩

end LessSyntax.Grammar
