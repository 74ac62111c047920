import LessSyntax.Proofs.Enclosing

/-!
# Which kind an item is of

The kinds of items are tried in a fixed order, and each commits behind what tells it from the
others. So the order and the commitments do not matter: where a rule for one kind matches, the
rules for the kinds before it miss, and never fail. Most kinds begin with different characters. The
others are told apart by what stands behind a common beginning, which is a name or a step of the
name of a mixin.

* `kinds_apart`: where a kind matches, each kind before it misses.
* `item_eq_of_kind`: what matches as one kind is the item, and matches as no other kind.
-/

namespace LessSyntax.Grammar

open Cursor Rule

variable {α β : Type} {s : Settings} {levels : Nat} {inner? : Option (Rule Item)} {c rest : Cursor}

/-! ## What stands ahead of a match -/

section

variable {rule : Rule α} {p : Char → Prop} {v : α}

/-- A rule that misses where no character of a kind stands has one ahead where it matches. -/
theorem head_of_matched (hrefuses : ∀ k : List Char, (∀ x ∈ k.head?, ¬ p x) → rule.Refuses k)
    (hc : c.Within) (h : rule c = .matched v rest) : ∀ x ∈ c.ahead.head?, p x := by
  intro x hx
  refine Classical.byContradiction fun hp => ?_
  obtain ⟨place, expected, hmiss⟩ : MissesAt rule c :=
    hrefuses c.ahead (fun y hy => Option.mem_unique hx hy ▸ hp) c hc rfl
  rw [hmiss] at h
  cases h

theorem next_of_matched (hrefuses : ∀ k : List Char, (∀ x ∈ k.head?, ¬ p x) → rule.Refuses k)
    (hc : c.Within) (h : token s rule c = .matched v rest) : Next s.lineComments p c.ahead := by
  obtain ⟨_, mid, hskip, hrule⟩ := Outcome.bind_matched.mp h
  have hmid := (trivia_ensures c _ mid hc hskip).1.within hc
  exact next_of_trivia hc hskip (head_of_matched hrefuses hmid hrule)

end

theorem next_of_name {t : Text} (hc : c.Within) (h : token s name c = .matched t rest) :
    Next s.lineComments (isNameChar · = true) c.ahead :=
  next_of_matched (fun _ hk => name_refuses fun x hx => Bool.eq_false_iff.mpr (hk x hx)) hc h

theorem next_of_atName {t : Text} (hc : c.Within) (h : token s atName c = .matched t rest) :
    Next s.lineComments (· = '@') c.ahead :=
  next_of_matched (fun _ hk => atName_refuses hk) hc h

theorem next_of_symbol {x : Char} {t : Text} (hc : c.Within)
    (h : symbol s [x] c = .matched t rest) : Next s.lineComments (· = x) c.ahead := by
  refine next_of_matched (fun k hk => literal_refuses (by simp) ?_) hc h
  rintro ⟨m, rfl⟩
  exact hk x rfl rfl

theorem next_of_mixinStep {step : Selector} (hc : c.Within)
    (h : token s mixinStep c = .matched step rest) :
    Next s.lineComments (fun x => x = '#' ∨ x = '.') c.ahead :=
  next_of_matched (fun _ hk => mixinStep_refuses fun x hx => not_or.mp (hk x hx)) hc h

theorem next_of_mixinJoint {step : Selector} (hc : c.Within)
    (h : mixinJoint s c = .matched step rest) :
    Next s.lineComments (fun x => x = '>' ∨ x = '#' ∨ x = '.') c.ahead := by
  obtain ⟨⟨mark, _⟩, hboth, rfl⟩ := map_matched.mp h
  obtain ⟨mid, hmark, hstep⟩ := both_matched.mp hboth
  rcases opt_matched hmark with ⟨t, -, hmark⟩ | ⟨-, rfl, -⟩
  · exact (next_of_symbol hc hmark).mono fun _ => Or.inl
  · exact (next_of_mixinStep hc hstep).mono fun _ => Or.inr

theorem endOf_matched {expected : String} {v : Unit} (hc : c.Within)
    (h : endOf expected c = .matched v rest) : rest = c ∧ c.ahead = [] := by
  unfold endOf at h
  split at h
  · rename_i hatEnd
    cases h
    exact ⟨rfl, hc.atEnd_iff.mp hatEnd⟩
  · cases h

/-- Where an item may end no block begins. -/
theorem next_of_terminator {found : Option Text} (hc : c.Within)
    (h : terminator s c = .matched found rest) : Next s.lineComments (· ≠ '{') c.ahead := by
  have hmark : ∀ {x : Char} {t : Text} {stop : Cursor}, x ≠ '{' →
      symbol s [x] c = .matched t stop → Next s.lineComments (· ≠ '{') c.ahead :=
    fun hx h => (next_of_symbol hc h).mono fun y hy => by rw [hy]; exact hx
  rcases choice_cons_matched h with h | ⟨-, h⟩
  · obtain ⟨t, h, -⟩ := map_matched.mp h
    exact hmark (by decide) h
  rcases choice_cons_matched h with h | ⟨-, h⟩
  · obtain ⟨t, h, -⟩ := map_matched.mp h
    obtain ⟨-, stop, h⟩ := peek_matched h
    exact hmark (by decide) h
  · obtain ⟨_, h, -⟩ := map_matched.mp (relabel_matched.mp h)
    obtain ⟨_, mid, hskip, hend⟩ := Outcome.bind_matched.mp h
    have hmid := (trivia_ensures c _ mid hc hskip).1.within hc
    exact next_of_trivia hc hskip (by simp [(endOf_matched hmid hend).2])

/-- Where a block begins a brace stands. -/
theorem next_of_block {block : List Item} (hc : c.Within)
    (h : blockOver s inner? c = .matched block rest) : Next s.lineComments (· = '{') c.ahead := by
  obtain ⟨t, mid, hopen, -⟩ := Outcome.bind_matched.mp h
  exact next_of_symbol hc hopen

/-! ## Common beginnings -/

/-- A match of two rules, one after the other, misses where the second one does. -/
theorem both_misses_behind {first : Rule α} {second : Rule β} {v : α}
    (hfirst : first c = .matched v rest) (hsecond : MissesAt second rest) :
    MissesAt (both first second) c := by
  obtain ⟨place, expected, hsecond⟩ := hsecond
  exact ⟨place, expected, by simp [both, hfirst, hsecond]⟩

/-- The kinds of selectors begin with different characters. So a selector that is read among all
kinds is a step of the name of a mixin, or a name, or the mark of the universal selector. -/
theorem simpleSelector_cases {selector : Selector} (hc : c.Within)
    (h : simpleSelector s c = .matched selector rest) :
    token s mixinStep c = .matched selector rest ∨
      token s name c = .matched selector.name rest ∨ Next s.lineComments (· = '*') c.ahead := by
  obtain ⟨_, mid, hskip, hrule⟩ := Outcome.bind_matched.mp h
  have hmid := (trivia_ensures c _ mid hc hskip).1.within hc
  have hbehind : ∀ {α : Type} {rule : Rule α} {v : α}, rule mid = .matched v rest →
      token s rule c = .matched v rest :=
    fun hrule => Outcome.bind_matched.mpr ⟨_, mid, hskip, hrule⟩
  rcases choice_cons_matched hrule with hid | ⟨-, hrule⟩
  · obtain ⟨t, ht, -⟩ := map_matched.mp hid
    have hhead : ∀ x ∈ mid.ahead.head?, x = '#' :=
      head_of_matched (fun _ hk => nameAfter_refuses hk) hmid ht
    have hclass : MissesAt classSelector mid := by
      refine map_misses (nameAfter_refuses (fun x hx => ?_) mid hmid rfl)
      rw [hhead x hx]
      decide
    exact .inl (hbehind (choice_tail hclass (choice_head hid)))
  rcases choice_cons_matched hrule with hclass | ⟨-, hrule⟩
  · exact .inl (hbehind (choice_head hclass))
  rcases choice_cons_matched hrule with htype | ⟨-, hrule⟩
  · obtain ⟨t, ht, rfl⟩ := map_matched.mp htype
    exact .inr (.inl (hbehind ht))
  · obtain ⟨t, ht, -⟩ := map_matched.mp (relabel_matched.mp hrule)
    refine .inr (.inr (next_of_symbol hc (Outcome.bind_matched.mpr ⟨_, mid, hskip, ht⟩)))

/-- A rule for selectors begins with one of them. Behind it stands a comma or a block. -/
theorem qualifiedRule_begins {x : Item} (hc : c.Within)
    (h : qualifiedRuleOver s inner? c = .matched x rest) :
    ∃ selector mid, mid.Within ∧ simpleSelector s c = .matched selector mid ∧
      Next s.lineComments (fun y => y = ',' ∨ y = '{') mid.ahead := by
  obtain ⟨found, h, -⟩ := map_matched.mp h
  obtain ⟨stop, hgroup, hblock⟩ := both_matched.mp h
  have hstop := (selectorGroup_ensures c _ stop hc hgroup).1.within hc
  obtain ⟨selector, mid, hfirst, hothers⟩ := Outcome.bind_matched.mp hgroup
  have hmid := (simpleSelector_ensures c _ mid hc hfirst).1.within hc
  refine ⟨selector, mid, hmid, hfirst, ?_⟩
  obtain ⟨others, hothers, -⟩ := Outcome.map_matched.mp hothers
  obtain ⟨-, -, rfl⟩ | ⟨_, _, _, _, hcomma, -⟩ := separatedUpTo_matched.mp hothers
  · exact (next_of_block hstop hblock).mono fun _ => Or.inr
  · exact (next_of_symbol hmid hcomma).mono fun _ => Or.inl

/-- A call begins with a step of the name of a mixin. Behind it stands a further step, or it is the
name, and parentheses stand behind it, and then what ends an item. -/
theorem mixinCall_begins {x : Item} (hc : c.Within) (h : mixinCall s c = .matched x rest) :
    ∃ step mid, mid.Within ∧ token s mixinStep c = .matched step mid ∧
      (Next s.lineComments (fun y => y = '>' ∨ y = '#' ∨ y = '.') mid.ahead ∨
        ∃ parens stop, stop.Within ∧ emptyParens s mid = .matched parens stop ∧
          Next s.lineComments (· ≠ '{') stop.ahead) := by
  obtain ⟨path, h, -⟩ := map_matched.mp h
  obtain ⟨stop, _, hcall, hend⟩ := terminated_matched.mp h
  obtain ⟨behind, parens, hpath, hparens⟩ := terminated_matched.mp hcall
  have hbehind := (mixinPath_ensures c _ behind hc hpath).1.within hc
  have hstop := (emptyParens_ensures behind _ stop hbehind hparens).1.within hbehind
  obtain ⟨⟨step, others⟩, hsteps, -⟩ := map_matched.mp hpath
  obtain ⟨mid, hfirst, hothers⟩ := both_matched.mp hsteps
  have hmid := (token_advances mixinStep_advances c _ mid hc hfirst).1.within hc
  refine ⟨step, mid, hmid, hfirst, ?_⟩
  cases hjoint : mixinJoint s mid with
  | matched step next => exact .inl (next_of_mixinJoint hmid hjoint)
  | failed place expected blamed =>
    rw [many_of_failed hjoint] at hothers
    cases hothers
  | missed place expected =>
    rw [many_of_misses ⟨place, expected, hjoint⟩] at hothers
    cases hothers
    exact .inr ⟨parens, stop, hstop, hparens, next_of_terminator hstop (cut_matched.mp hend)⟩

/-- The name of a mixin is a single step. -/
theorem mixinName_of_step {step : Selector} (h : token s mixinStep c = .matched step rest) :
    token s mixinName c = .matched ⟨step, []⟩ rest := by
  obtain ⟨_, mid, hskip, hstep⟩ := Outcome.bind_matched.mp h
  exact Outcome.bind_matched.mpr ⟨_, mid, hskip, map_matched.mpr ⟨step, hstep, rfl⟩⟩

/-- A step of the name of a mixin without parentheses behind it is no mixin. -/
theorem mixinDeclaration_misses_behind {step : Selector} (hrest : rest.Within)
    (h : token s mixinStep c = .matched step rest)
    (hnext : Next s.lineComments (· ≠ '(') rest.ahead) :
    MissesAt (mixinDeclarationOver s inner?) c :=
  map_misses (both_misses (map_misses (both_misses_behind (mixinName_of_step h)
    (emptyParens_refuses hnext rest hrest rfl))))

/-! ## The kinds of items -/

/-- The kinds of items above the rule for inner items, in the order in which they are tried. -/
def kindsOver (s : Settings) (levels : Nat) (inner? : Option (Rule Item)) : List (Rule Item) :=
  [mixinDeclarationOver s inner?, declarationAt s levels, mixinCall s, qualifiedRuleOver s inner?,
    variableDeclarationOver s levels inner?, variableCall s]

/-- If the later outcome is a match, the earlier one is a miss. -/
def Yields (earlier later : Outcome α) : Prop :=
  ∀ v rest, later = .matched v rest → ∃ place expected, earlier = .missed place expected

/-- If the later rule matches at the cursor, the earlier one misses there. -/
def YieldsAt (c : Cursor) (earlier later : Rule α) : Prop := Yields (earlier c) (later c)

theorem pairwise_yieldsAt_iff {rules : List (Rule α)} :
    rules.Pairwise (YieldsAt c) ↔ (rules.map (· c)).Pairwise Yields := by
  rw [List.pairwise_map]
  rfl

/-- Rules that begin with other characters than what matches miss. -/
theorem YieldsAt.of_next {earlier later : Rule α} {p q : Char → Prop} (hc : c.Within)
    (hlater : ∀ {v rest}, later c = .matched v rest → Next s.lineComments p c.ahead)
    (hearlier : ∀ {k}, Next s.lineComments q k → earlier.Refuses k) (hpq : ∀ x, p x → q x) :
    YieldsAt c earlier later :=
  fun _ _ h => hearlier ((hlater h).mono hpq) c hc rfl

theorem next_of_declaration {x : Item} (hc : c.Within)
    (h : declarationAt s levels c = .matched x rest) :
    Next s.lineComments (isNameChar · = true) c.ahead := by
  obtain ⟨t, mid, h, -⟩ := Outcome.bind_matched.mp h
  obtain ⟨stop, mark, hname, -⟩ := terminated_matched.mp h
  exact next_of_name hc hname

theorem next_of_mixinCall {x : Item} (hc : c.Within) (h : mixinCall s c = .matched x rest) :
    Next s.lineComments (fun x => x = '#' ∨ x = '.') c.ahead := by
  obtain ⟨step, mid, -, hstep, -⟩ := mixinCall_begins hc h
  exact next_of_mixinStep hc hstep

theorem next_of_variableDeclaration {x : Item} (hc : c.Within)
    (h : variableDeclarationOver s levels inner? c = .matched x rest) :
    Next s.lineComments (· = '@') c.ahead := by
  obtain ⟨t, mid, h, -⟩ := Outcome.bind_matched.mp h
  obtain ⟨stop, mark, hname, -⟩ := terminated_matched.mp h
  exact next_of_atName hc hname

theorem variableCall_begins {x : Item} (hc : c.Within) (h : variableCall s c = .matched x rest) :
    ∃ t mid, mid.Within ∧ token s atName c = .matched t mid ∧
      Next s.lineComments (· = '(') mid.ahead := by
  obtain ⟨t, h, -⟩ := map_matched.mp h
  obtain ⟨stop, _, h, -⟩ := terminated_matched.mp h
  obtain ⟨mid, parens, hname, hparens⟩ := terminated_matched.mp h
  have hmid := (token_advances atName_advances c _ mid hc hname).1.within hc
  obtain ⟨behind, hopen, -⟩ := both_matched.mp hparens
  exact ⟨t, mid, hmid, hname, next_of_symbol hmid hopen⟩

theorem next_of_variableCall {x : Item} (hc : c.Within) (h : variableCall s c = .matched x rest) :
    Next s.lineComments (· = '@') c.ahead := by
  obtain ⟨t, mid, -, hname, -⟩ := variableCall_begins hc h
  exact next_of_atName hc hname

/-! ### Kinds with a common beginning -/

/-- A call of one step is no mixin, since no block stands behind it. -/
theorem mixinDeclaration_yieldsAt_call (hc : c.Within) :
    YieldsAt c (mixinDeclarationOver s inner?) (mixinCall s) := by
  intro x rest h
  obtain ⟨step, mid, hmid, hstep, hmore | ⟨parens, stop, hstop, hparens, hend⟩⟩ :=
    mixinCall_begins hc h
  · refine mixinDeclaration_misses_behind hmid hstep (hmore.mono ?_)
    rintro y (rfl | rfl | rfl) <;> decide
  · have hname : terminated (token s mixinName) (emptyParens s) c = .matched ⟨step, []⟩ stop :=
      terminated_matched.mpr ⟨mid, parens, mixinName_of_step hstep, hparens⟩
    exact map_misses (both_misses_behind hname (blockOver_refuses hend stop hstop rfl))

/-- Selectors that begin a rule are not the name of a mixin with parentheses. -/
theorem mixinDeclaration_yieldsAt_rule (hc : c.Within) :
    YieldsAt c (mixinDeclarationOver s inner?) (qualifiedRuleOver s inner?) := by
  intro x rest h
  have hmark : ∀ {p : Char → Prop}, Next s.lineComments p c.ahead → (∀ y, p y → y ≠ '#' ∧ y ≠ '.') →
      MissesAt (mixinDeclarationOver s inner?) c :=
    fun hnext hp => mixinDeclaration_refuses (hnext.mono hp) c hc rfl
  obtain ⟨selector, mid, hmid, hselector, hnext⟩ := qualifiedRule_begins hc h
  rcases simpleSelector_cases hc hselector with hstep | hname | hstar
  · refine mixinDeclaration_misses_behind hmid hstep (hnext.mono ?_)
    rintro y (rfl | rfl) <;> decide
  · exact hmark (next_of_name hc hname) fun y hy => ⟨ne_of_class hy rfl, ne_of_class hy rfl⟩
  · exact hmark hstar fun y hy => by rw [hy]; decide

/-- The name of an element that begins a rule has no colon behind it. -/
theorem declaration_yieldsAt_rule (hc : c.Within) :
    YieldsAt c (declarationAt s levels) (qualifiedRuleOver s inner?) := by
  intro x rest h
  have hmark : ∀ {p : Char → Prop}, Next s.lineComments p c.ahead →
      (∀ y, p y → isNameChar y = false) → MissesAt (declarationAt s levels) c :=
    fun hnext hp => declaration_refuses (hnext.mono hp) c hc rfl
  obtain ⟨selector, mid, hmid, hselector, hnext⟩ := qualifiedRule_begins hc h
  rcases simpleSelector_cases hc hselector with hstep | hname | hstar
  · refine hmark (next_of_mixinStep hc hstep) ?_
    rintro y (rfl | rfl) <;> decide
  · have hcolon : MissesAt (symbol s [':']) mid := by
      refine symbol_refuses_next (hnext.mono ?_) mid hmid rfl
      rintro y (rfl | rfl) <;> decide
    exact bind_misses (map_misses (both_misses_behind hname hcolon))
  · exact hmark hstar fun y hy => by rw [hy]; decide

/-- Behind the first step of what begins a rule neither a further step stands nor parentheses. -/
theorem mixinCall_yieldsAt_rule (hc : c.Within) :
    YieldsAt c (mixinCall s) (qualifiedRuleOver s inner?) := by
  intro x rest h
  have hmark : ∀ {p : Char → Prop}, Next s.lineComments p c.ahead → (∀ y, p y → y ≠ '#' ∧ y ≠ '.') →
      MissesAt (mixinCall s) c :=
    fun hnext hp => mixinCall_refuses (hnext.mono hp) c hc rfl
  obtain ⟨selector, mid, hmid, hselector, hnext⟩ := qualifiedRule_begins hc h
  rcases simpleSelector_cases hc hselector with hstep | hname | hstar
  · have hjoint : MissesAt (mixinJoint s) mid := by
      refine mixinJoint_refuses (hnext.mono ?_) mid hmid rfl
      rintro y (rfl | rfl) <;> decide
    have hparens : MissesAt (emptyParens s) mid := by
      refine emptyParens_refuses (hnext.mono ?_) mid hmid rfl
      rintro y (rfl | rfl) <;> decide
    have hpath : mixinPath s c = .matched ⟨selector, []⟩ mid :=
      map_matched.mpr ⟨(selector, []), both_matched.mpr ⟨mid, hstep, many_of_misses hjoint⟩, rfl⟩
    exact map_misses (map_misses (both_misses (map_misses (both_misses_behind hpath hparens))))
  · exact hmark (next_of_name hc hname) fun y hy => ⟨ne_of_class hy rfl, ne_of_class hy rfl⟩
  · exact hmark hstar fun y hy => by rw [hy]; decide

theorem variableDeclaration_yieldsAt_call (hc : c.Within) :
    YieldsAt c (variableDeclarationOver s levels inner?) (variableCall s) := by
  intro x rest h
  obtain ⟨t, mid, hmid, hname, hopen⟩ := variableCall_begins hc h
  have hcolon : MissesAt (symbol s [':']) mid :=
    symbol_refuses_next (hopen.mono fun y hy => by rw [hy]; decide) mid hmid rfl
  exact bind_misses (map_misses (both_misses_behind hname hcolon))

/-- Where a rule for one kind of item matches, the rules for the kinds before it miss. -/
theorem kinds_apart (hc : c.Within) : (kindsOver s levels inner?).Pairwise (YieldsAt c) := by
  have hname : ∀ x, isNameChar x = true → x ≠ '#' ∧ x ≠ '.' :=
    fun x hx => ⟨ne_of_class hx rfl, ne_of_class hx rfl⟩
  have hstep : ∀ x, x = '@' → x ≠ '#' ∧ x ≠ '.' := by
    rintro x rfl
    decide
  have hat : ∀ x, x = '@' → isNameChar x = false := by
    rintro x rfl
    rfl
  have hselector : ∀ x, x = '@' → x ∉ selectorMarks ∧ isNameChar x = false := by
    rintro x rfl
    decide
  have hcall : ∀ x, x = '#' ∨ x = '.' → isNameChar x = false := by
    rintro x (rfl | rfl) <;> rfl
  simp only [kindsOver, List.pairwise_cons, List.forall_mem_cons]
  refine ⟨⟨?_, mixinDeclaration_yieldsAt_call hc, mixinDeclaration_yieldsAt_rule hc, ?_, ?_, nofun⟩,
    ⟨?_, declaration_yieldsAt_rule hc, ?_, ?_, nofun⟩, ⟨mixinCall_yieldsAt_rule hc, ?_, ?_, nofun⟩,
    ⟨?_, ?_, nofun⟩, ⟨variableDeclaration_yieldsAt_call hc, nofun⟩, nofun, .nil⟩
  · exact .of_next hc (next_of_declaration hc) mixinDeclaration_refuses hname
  · exact .of_next hc (next_of_variableDeclaration hc) mixinDeclaration_refuses hstep
  · exact .of_next hc (next_of_variableCall hc) mixinDeclaration_refuses hstep
  · exact .of_next hc (next_of_mixinCall hc) declaration_refuses hcall
  · exact .of_next hc (next_of_variableDeclaration hc) declaration_refuses hat
  · exact .of_next hc (next_of_variableCall hc) declaration_refuses hat
  · exact .of_next hc (next_of_variableDeclaration hc) mixinCall_refuses hstep
  · exact .of_next hc (next_of_variableCall hc) mixinCall_refuses hstep
  · exact .of_next hc (next_of_variableDeclaration hc) qualifiedRule_refuses hselector
  · exact .of_next hc (next_of_variableCall hc) qualifiedRule_refuses hselector

/-! ## The choice -/

theorem firstOf_congr {rule rule' : Rule α} {rules rules' : List (Rule α)}
    (hrule : rule c = rule' c) (hrules : rules.map (· c) = rules'.map (· c)) :
    firstOf rule rules c = firstOf rule' rules' c := by
  induction rules generalizing rule rule' rules' with
  | nil =>
    obtain rfl : rules' = [] := List.map_eq_nil_iff.mp hrules.symm
    exact hrule
  | cons next rules ih =>
    obtain ⟨next', rules', rfl, hnext, hrules⟩ := List.map_eq_cons_iff.mp hrules.symm
    rw [firstOf, firstOf, hrule, ih hnext.symm hrules.symm]

/-- A choice depends on what its rules do at the cursor. -/
theorem choice_congr {rules rules' : List (Rule α)} {label : Option String}
    (h : rules.map (· c) = rules'.map (· c)) : choice rules label c = choice rules' label c := by
  cases rules with
  | nil =>
    obtain rfl : rules' = [] := List.map_eq_nil_iff.mp h.symm
    rfl
  | cons rule rules =>
    obtain ⟨rule', rules', rfl, hrule, hrules⟩ := List.map_eq_cons_iff.mp h.symm
    rw [choice, choice, firstOf_congr hrule.symm hrules.symm]

/-- The first rule that does not miss is chosen. -/
theorem choice_behind {rule : Rule α} {before after : List (Rule α)} {label : Option String} {v : α}
    (hbefore : ∀ r ∈ before, MissesAt r c) (h : rule c = .matched v rest) :
    choice (before ++ rule :: after) label c = .matched v rest := by
  induction before with
  | nil => exact choice_head h
  | cons r before ih =>
    obtain ⟨hmiss, hbefore⟩ := List.forall_mem_cons.mp hbefore
    exact choice_tail hmiss (ih hbefore)

/-- Where one of several rules matches, each of which yields to those behind it, it is chosen, and
no other one matches. -/
theorem choice_of_pairwise {rule : Rule α} {before after : List (Rule α)} {label : Option String}
    {v : α} (hrules : (before ++ rule :: after).Pairwise (YieldsAt c))
    (h : rule c = .matched v rest) :
    choice (before ++ rule :: after) label c = .matched v rest ∧
      (∀ earlier ∈ before, MissesAt earlier c) ∧
      ∀ later ∈ after, ∀ w stop, later c ≠ .matched w stop := by
  obtain ⟨-, hbehind, hacross⟩ := List.pairwise_append.mp hrules
  have hbefore : ∀ earlier ∈ before, MissesAt earlier c :=
    fun earlier hmem => hacross earlier hmem rule List.mem_cons_self v rest h
  refine ⟨choice_behind hbefore h, hbefore, fun later hmem w stop hlater => ?_⟩
  obtain ⟨place, expected, hmiss⟩ := (List.pairwise_cons.mp hbehind).1 later hmem w stop hlater
  rw [hmiss] at h
  cases h

/-- What one of the kinds reads is the item. -/
theorem item_of_kind {rule : Rule Item} {x : Item} (hc : c.Within)
    (hkind : rule ∈ kindsOver s levels inner?) (h : rule c = .matched x rest) :
    itemOver s levels inner? c = .matched x rest := by
  obtain ⟨before, after, hkinds⟩ := List.append_of_mem hkind
  have hapart : (kindsOver s levels inner?).Pairwise (YieldsAt c) := kinds_apart hc
  rw [hkinds] at hapart
  have hitem : choice (kindsOver s levels inner?) (some itemLabel) c = .matched x rest := by
    rw [hkinds]
    exact (choice_of_pairwise hapart h).1
  exact hitem

/-- The rules for the kinds of items, in the order in which they are tried. -/
def itemKinds (s : Settings) : List (Rule Item) :=
  [mixinDeclaration s, declaration s, mixinCall s, qualifiedRule s, variableDeclaration s,
    variableCall s]

/-- At a cursor the levels that are left are known. -/
theorem itemKinds_outcomes (s : Settings) (c : Cursor) :
    (kindsOver s (levelsLeft s c) (innerItem? s (levelsLeft s c))).map (· c)
      = (itemKinds s).map (· c) := by
  simp only [kindsOver, itemKinds, List.map_cons, List.map_nil]
  rfl

theorem item_eq_choice (s : Settings) (c : Cursor) :
    item s c = choice (itemKinds s) (some itemLabel) c := by
  have hcongr : choice (kindsOver s (levelsLeft s c) (innerItem? s (levelsLeft s c)))
      (some itemLabel) c = choice (itemKinds s) (some itemLabel) c :=
    choice_congr (itemKinds_outcomes s c)
  rw [← hcongr]
  rfl

/-- **One kind only.** Where a rule for one kind of item matches, the item is what it matches. No
rule for a kind before it fails there, and no rule for another kind matches. -/
theorem item_eq_of_kind {s : Settings} {c rest : Cursor} {x : Item} (hc : c.Within)
    {before after : List (Rule Item)} {kind : Rule Item}
    (hkinds : itemKinds s = before ++ kind :: after) (h : kind c = .matched x rest) :
    item s c = .matched x rest ∧ (∀ earlier ∈ before, MissesAt earlier c) ∧
      ∀ later ∈ after, ∀ y stop, later c ≠ .matched y stop := by
  have hrules : (itemKinds s).Pairwise (YieldsAt c) := by
    have hkinds : (kindsOver s (levelsLeft s c) (innerItem? s (levelsLeft s c))).Pairwise
      (YieldsAt c) := kinds_apart hc
    rw [pairwise_yieldsAt_iff, itemKinds_outcomes] at hkinds
    exact pairwise_yieldsAt_iff.mpr hkinds
  rw [item_eq_choice, hkinds]
  exact choice_of_pairwise (hkinds ▸ hrules) h

/-- A call begins like a mixin, and no rule fails where it is told apart from one. -/
theorem mixinCall_chosen :
    ∃ x rest, item ⟨1, true⟩ (ofText ['.', 'a', '/', '*', '*', '/', '(', ')', ';'])
        = .matched x rest ∧
      ∀ earlier ∈ [mixinDeclaration ⟨1, true⟩, declaration ⟨1, true⟩],
        MissesAt earlier (ofText ['.', 'a', '/', '*', '*', '/', '(', ')', ';']) := by
  obtain ⟨x, rest, hcall⟩ : ∃ x rest, mixinCall ⟨1, true⟩
      (ofText ['.', 'a', '/', '*', '*', '/', '(', ')', ';']) = .matched x rest := ⟨_, _, rfl⟩
  have hkinds : itemKinds ⟨1, true⟩ = [mixinDeclaration ⟨1, true⟩, declaration ⟨1, true⟩] ++
      mixinCall ⟨1, true⟩ :: [qualifiedRule ⟨1, true⟩, variableDeclaration ⟨1, true⟩,
        variableCall ⟨1, true⟩] := rfl
  obtain ⟨hitem, hmiss, -⟩ := item_eq_of_kind (within_ofText _) hkinds hcall
  exact ⟨x, rest, hitem, hmiss⟩

end LessSyntax.Grammar
