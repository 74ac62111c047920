import LessSyntax.Proofs.Nesting
import LessSyntax.Proofs.ValueEdges

/-!
# Values that are written are read

A value that can be written is read again wherever something stands behind it that ends it, and
trivia may stand before it. The proof follows the grammar: each rule takes the values of its
rank, if the rules below it do, and calls go down a level.

* `primitive_takes`, `slashList_takes`, `spaceList_takes`, `valueAt_takes`: the written values
  that each rule takes.
-/

namespace LessSyntax

open Grammar Rule

namespace Grammar

variable {s : Settings} {inner? : Option (Rule Value)} {w k l : List Char}

/-! ## Lists -/

/-- The rule reads the written values of a rank, with trivia before them and something behind
them that follows. -/
def Takes (s : Settings) (rule : Rule Value) (rank levels : Nat) (follow : List Char → Prop) :
    Prop :=
  ∀ (v : Value) (w k : List Char), v.Written rank → v.nesting ≤ levels →
    TriviaRun s.lineComments w (v.print ++ k) → follow k →
    rule.Accepts (w ++ v.print) k fun u => v.same u = true

/-- Values with the same content, element by element. -/
def SameElements (vs ws : OneOrMore Value) : Prop :=
  vs.first.same ws.first = true ∧ Value.sameAll vs.others ws.others = true

theorem same_collapse {separator : Separator} {vs ws : OneOrMore Value}
    (h : SameElements vs ws) : (collapse separator vs).same (collapse separator ws) = true := by
  obtain ⟨v, vs⟩ := vs
  obtain ⟨w, ws⟩ := ws
  obtain ⟨hfirst, hothers⟩ := h
  cases vs with
  | nil =>
    cases ws with
    | nil => exact hfirst
    | cons _ _ => simp [Value.sameAll] at hothers
  | cons v' vs =>
    cases ws with
    | nil => simp [Value.sameAll] at hothers
    | cons w' ws =>
      rw [collapse_cons separator v (List.cons_ne_nil _ _),
        collapse_cons separator w (List.cons_ne_nil _ _), Value.same, beq_self_eq_true,
        Value.sameAll, hfirst, hothers]
      rfl

theorem sameAll_nil : Value.sameAll [] [] = true := by rw [Value.sameAll]

theorem sameAll_cons (v u : Value) (vs us : List Value) (h : v.same u = true)
    (hs : Value.sameAll vs us = true) : Value.sameAll (v :: vs) (u :: us) = true := by
  rw [Value.sameAll, h, hs]
  rfl

theorem rank_injective {a b : Separator} (h : a.rank = b.rank) : a = b := by
  cases a <;> cases b <;> first | rfl | cases h

/-- A value of the rank of a separator is a list of that kind, or of the rank below. -/
theorem written_elements (separator : Separator) {v : Value} (h : v.Written separator.rank) :
    ∃ first others, v = collapse separator ⟨first, others⟩ ∧
      (∀ u ∈ first :: others, u.Written (separator.rank - 1)) ∧
      ∀ u ∈ first :: others, u.nesting ≤ v.nesting := by
  have hlower : v.Written (separator.rank - 1) → ∃ first others,
      v = collapse separator ⟨first, others⟩ ∧
      (∀ u ∈ first :: others, u.Written (separator.rank - 1)) ∧
      ∀ u ∈ first :: others, u.nesting ≤ v.nesting :=
    fun hlower => ⟨v, [], rfl, by simpa using hlower, by simp⟩
  cases v with
  | list values other =>
    obtain ⟨hrank, hlength, hall⟩ := h
    by_cases heq : other.rank = separator.rank
    · obtain rfl := rank_injective heq
      obtain ⟨first, others, rfl⟩ := List.exists_cons_of_length_pos (by omega : 0 < values.length)
      have hne : others ≠ [] := by
        rintro rfl
        simp at hlength
      refine ⟨first, others, (collapse_cons other first hne).symm, Value.allWritten_iff.mp hall, ?_⟩
      rw [Value.nesting]
      exact Value.nestingAll_le.mp (Nat.le_refl _)
    · exact hlower ⟨by omega, hlength, hall⟩
  | _ => exact hlower h

section

variable {lower : Rule Value} {rank levels : Nat} {follow : List Char → Prop} {first : Value}
  {others : List Value}

/-- Elements with a mark between them, and what stands between a mark and the next element. -/
theorem accepts_separatedValues (mark : Char) (gap : List Char) {context : String}
    (hlower : Takes s lower rank levels follow) (hgap : ∀ b ∈ gap, isBlank b = true)
    (hmark : ∀ v : Value, v.Written rank → ∀ l,
      NoTrivia s.lineComments (mark :: (gap ++ v.print ++ l)))
    (hwritten : ∀ v ∈ first :: others, v.Written rank)
    (hnesting : ∀ v ∈ first :: others, v.nesting ≤ levels)
    (hrun : TriviaRun s.lineComments w
      (first.print ++ (others.flatMap (fun v => [mark] ++ (gap ++ v.print)) ++ k)))
    (hfollow : ∀ vs ⊆ others, follow (vs.flatMap (fun v => [mark] ++ (gap ++ v.print)) ++ k))
    (hstop : (symbol s [mark]).Refuses k) :
    (separated1 lower (symbol s [mark]) context).Accepts
      (w ++ first.print ++ others.flatMap fun v => [mark] ++ (gap ++ v.print)) k
      fun us => SameElements ⟨first, others⟩ us := by
  have hothers : ∀ v ∈ others, v ∈ first :: others := fun v hv => List.mem_cons_of_mem _ hv
  refine accepts_separated1 (S := fun vs us => Value.sameAll vs us = true) sameAll_nil sameAll_cons
    (hlower first w _ (hwritten first List.mem_cons_self) (hnesting first List.mem_cons_self) hrun
      (hfollow others (List.Subset.refl _)))
    (spells_flatMap fun v hv vs hvs => ⟨[mark], gap ++ v.print, rfl, by simp, ?_, ?_⟩) hstop
    fun u us hu hus => ⟨hu, hus⟩
  · exact accepts_symbol .nil (hmark v (hwritten v (hothers v hv)) _) (by simp)
  · exact hlower v gap _ (hwritten v (hothers v hv)) (hnesting v (hothers v hv))
      (triviaRun_blanks hgap) (hfollow vs hvs)

end

/-- What may stand behind a list with slashes. -/
def FollowsSlashList (s : Settings) (k : List Char) : Prop :=
  Boundary k ∧ (symbol s ['/']).Refuses k

theorem noTrivia_slash {lineComments : Bool} {x : Char} (hstar : x ≠ '*') (hslash : x ≠ '/') :
    NoTrivia lineComments ('/' :: x :: l) := by
  refine ⟨by simp; decide, fun h => ?_, fun _ h => ?_⟩
  · exact hstar (List.cons_prefix_cons.mp (List.cons_prefix_cons.mp h).2).1.symm
  · exact hslash (List.cons_prefix_cons.mp (List.cons_prefix_cons.mp h).2).1.symm

theorem slashList_takes {levels : Nat}
    (hprimitive : Takes s (primitiveOver s inner?) 0 levels Boundary) :
    Takes s (slashListOver s inner?) 1 levels (FollowsSlashList s) := by
  intro v w k hv hlevels hrun ⟨hboundary, hstop⟩
  obtain ⟨first, others, rfl, hwritten, hnesting⟩ := written_elements .slash hv
  rw [print_collapse, List.append_assoc] at hrun
  rw [print_collapse, ← List.append_assoc]
  refine accepts_map (accepts_mono ?_ fun us hus => same_collapse hus)
  refine accepts_separatedValues '/' [] hprimitive (by simp) ?_ hwritten
    (fun u hu => Nat.le_trans (hnesting u hu) hlevels) hrun ?_ hstop
  · intro u hu l
    obtain ⟨x, m, hprint, hx⟩ := hu.head
    rw [List.nil_append, hprint]
    refine noTrivia_slash ?_ ?_ <;>
      · rintro rfl
        exact hx (by decide)
  · intro us _
    cases us with
    | nil => exact hboundary
    | cons u us => exact boundary_cons (by decide) _

/-- A further element behind a blank follows a list with slashes. -/
theorem followsSlashList_blank {u : Value} {rank : Nat} (hu : u.Written rank) (k : List Char) :
    FollowsSlashList s (' ' :: (u.print ++ k)) := by
  refine ⟨boundary_cons (by decide) _, ?_⟩
  have hblank : TriviaRun s.lineComments [' '] (u.print ++ k) :=
    triviaRun_blanks (by simp; decide)
  apply symbol_refuses hblank (Written.noTrivia hu k) (by simp)
  obtain ⟨x, m, hprint, hx⟩ := hu.head
  rintro ⟨l, hl⟩
  rw [hprint] at hl
  rw [← (List.cons.inj hl).1] at hx
  exact hx (by decide)

theorem Ends.followsSlashList (h : Ends s.lineComments elementEnds k) : FollowsSlashList s k :=
  ⟨h.boundary, h.symbol_refuses (List.Subset.refl _) (by decide)⟩

theorem Ends.slashList_refuses (h : Ends s.lineComments elementEnds k) :
    (slashListOver s inner?).Refuses k := by
  obtain ⟨w, l, rfl, hrun, hl⟩ := h
  exact Grammar.slashList_refuses hrun (noTrivia_of_ends hl)
    fun x hx => elementEnds_subset (hl x hx)

theorem spaceList_takes {levels : Nat}
    (hslash : Takes s (slashListOver s inner?) 1 levels (FollowsSlashList s)) :
    Takes s (spaceListOver s inner?) 2 levels (Ends s.lineComments elementEnds) := by
  intro v w k hv hlevels hrun hends
  obtain ⟨first, others, rfl, hwritten, hnesting⟩ := written_elements .space hv
  rw [print_collapse, List.append_assoc] at hrun
  rw [print_collapse, ← List.append_assoc]
  have hbelow : ∀ u ∈ first :: others, u.nesting ≤ levels :=
    fun u hu => Nat.le_trans (hnesting u hu) hlevels
  have hothers : ∀ u ∈ others, u ∈ first :: others := fun u hu => List.mem_cons_of_mem _ hu
  have hfollow : ∀ us ⊆ others,
      FollowsSlashList s (us.flatMap (fun u => [' '] ++ u.print) ++ k) := by
    intro us hus
    cases us with
    | nil => exact hends.followsSlashList
    | cons u us =>
      rw [List.flatMap_cons, List.append_assoc, List.append_assoc]
      exact followsSlashList_blank (hwritten u (hothers u (hus List.mem_cons_self))) _
  have hmore : (many (slashListOver s inner?)).Accepts
      (others.flatMap fun u => [' '] ++ u.print) k
      fun us => Value.sameAll others us = true := by
    refine accepts_many (S := fun vs us => Value.sameAll vs us = true) sameAll_nil sameAll_cons
      (spells_flatMap fun u hu us hus => ⟨by simp, ?_⟩)
      hends.slashList_refuses
    exact hslash u [' '] _ (hwritten u (hothers u hu)) (hbelow u (hothers u hu))
      (triviaRun_blanks (by simp; decide)) (hfollow us hus)
  have hfirst := hslash first w _ (hwritten first List.mem_cons_self)
    (hbelow first List.mem_cons_self) hrun (hfollow others (List.Subset.refl _))
  refine accepts_map (accepts_bind hfirst fun u hu => accepts_map (accepts_mono hmore ?_))
  exact fun us hus => same_collapse ⟨hu, hus⟩

/-- A character that ends a value ends it without trivia too. -/
theorem ends_cons {lineComments : Bool} {chars : List Char} {x : Char} (hx : x ∈ chars)
    (k : List Char) : Ends lineComments chars (x :: k) :=
  ⟨[], x :: k, rfl, .nil, head_cons hx⟩

theorem noTrivia_comma {lineComments : Bool} (k : List Char) : NoTrivia lineComments (',' :: k) :=
  noTrivia_cons (by decide) (by decide)

/-- Elements of a list with commas, which are written with a blank behind each comma. -/
theorem accepts_commas {lower : Rule Value} {levels : Nat} {first : Value} {others : List Value}
    {context : String} (hlower : Takes s lower 2 levels (Ends s.lineComments elementEnds))
    (hwritten : ∀ v ∈ first :: others, v.Written 2)
    (hnesting : ∀ v ∈ first :: others, v.nesting ≤ levels)
    (hrun : TriviaRun s.lineComments w
      (first.print ++ (others.flatMap (fun v => [',', ' '] ++ v.print) ++ k)))
    (hends : Ends s.lineComments valueEnds k) :
    (separated1 lower (symbol s [',']) context).Accepts
      (w ++ first.print ++ others.flatMap fun v => [',', ' '] ++ v.print) k
      fun us => SameElements ⟨first, others⟩ us := by
  refine accepts_separatedValues ',' [' '] hlower (by simp; decide)
    (fun _ _ _ => noTrivia_comma _) hwritten hnesting hrun ?_
    (hends.symbol_refuses (by decide) (by decide))
  intro us _
  cases us with
  | nil => exact hends.mono (by decide)
  | cons u us =>
    exact ends_cons (by decide) _

theorem commaList_takes {levels : Nat}
    (hspace : Takes s (spaceListOver s inner?) 2 levels (Ends s.lineComments elementEnds)) :
    Takes s (commaListOver s inner?) 3 levels (Ends s.lineComments valueEnds) := by
  intro v w k hv hlevels hrun hends
  obtain ⟨first, others, rfl, hwritten, hnesting⟩ := written_elements .comma hv
  rw [print_collapse, List.append_assoc] at hrun
  rw [print_collapse, ← List.append_assoc]
  refine accepts_map (accepts_mono ?_ fun us hus => same_collapse hus)
  exact accepts_commas hspace hwritten (fun u hu => Nat.le_trans (hnesting u hu) hlevels) hrun hends

/-! ## Calls -/

theorem accepts_arguments {argument : Rule Value} {levels : Nat}
    (hargument : Takes s argument 2 levels (Ends s.lineComments elementEnds))
    (hrefuses : ∀ k, argument.Refuses (')' :: k)) {vs : List Value}
    (hwritten : ∀ v ∈ vs, v.Written 2) (hnesting : ∀ v ∈ vs, v.nesting ≤ levels) :
    (arguments s argument).Accepts (Value.argumentsText vs ++ [')']) k
      fun us => Value.sameAll vs us = true := by
  have hclose : (symbol s [')']).Accepts [')'] k fun _ => True :=
    accepts_symbol .nil (noTrivia_cons (by decide) (by decide)) (by simp)
  refine accepts_map (accepts_cut (accepts_terminated ?_ hclose))
  cases vs with
  | nil =>
    refine accepts_mono (accepts_opt_none fun c hc hahead => ?_) fun us hus => ?_
    · exact bind_misses (hrefuses k c hc hahead)
    · rw [hus]
      exact sameAll_nil
  | cons v vs =>
    rw [Value.argumentsText, intercalate_printAll]
    refine accepts_opt (accepts_mono (accepts_commas (w := []) hargument hwritten hnesting .nil
      (ends_cons (by decide) k)) fun us hus => ?_)
    exact sameAll_cons v us.first vs us.others hus.1 hus.2

/-- A call is read where its arguments are read one level deeper. -/
theorem accepts_callOver {argument : Rule Value} {cs text : List Char} {P : List Value → Prop}
    (his : IsName cs) (harguments : (arguments s argument).Accepts text k P) :
    (callOver s (some argument)).Accepts (cs ++ '(' :: text) k
      fun u => ∃ callee us, u = .call callee us ∧ callee.chars = cs ∧ P us := by
  intro c hc hahead
  rw [List.append_assoc] at hahead
  have hparen : ∀ x ∈ ('(' :: (text ++ k)).head?, isNameChar x = false := head_cons rfl
  obtain ⟨callee, hcallee, hchars⟩ := accepts_name his hparen c hc hahead
  have hnamed := hc.ahead_advance hahead
  have hwithin := (hc.reads hahead).within hc
  have hopened := hwithin.ahead_advance_one hnamed
  have hstarts : (c.advance cs.length).startsWith ['('] = true :=
    (Cursor.startsWith_iff (by simp)).mpr ⟨_, hnamed⟩
  obtain ⟨us, hus, hP⟩ := harguments _ ((hwithin.reads_one hnamed).within hwithin).nested hopened
  refine ⟨.call callee us, ?_, callee, us, rfl, hchars, hP⟩
  unfold callOver
  rw [hcallee]
  dsimp only
  rw [if_pos hstarts, hus]
  dsimp only [Outcome.bind]
  congr 1
  have hdepth : c.depth = ((c.advance cs.length).advance 1).depth := by
    rw [Cursor.depth_advance, Cursor.depth_advance]
  rw [hdepth, Cursor.nested_advance_withDepth, Cursor.advance_advance, Cursor.advance_advance,
    List.length_append, List.length_cons]
  congr 1
  omega

/-! ## Primitive values -/

/-- What is neither a string nor a colour is left to the rules behind these. -/
theorem accepts_choice_plain {rules : List (Rule Value)} {expected : Option String} {x : Char}
    {cs : List Char} {Q : Value → Prop} (hquote : isQuotationMark x = false) (hhash : x ≠ '#')
    (hrules : (choice rules expected).Accepts (x :: cs) k Q) :
    (choice (quotedString :: color :: rules) expected).Accepts (x :: cs) k Q :=
  accepts_choice_tail (quotedString_refuses (head_cons hquote))
    (accepts_choice_tail (color_refuses (head_cons hhash)) hrules)

/-- What no number and no name begins with is left to the references. -/
theorem accepts_choice_marked {rules : List (Rule Value)} {expected : Option String} {x : Char}
    {cs : List Char} {Q : Value → Prop} (hplain : isQuotationMark x = false ∧ x ≠ '#')
    (hnumeric : isNumeric x = false) (hname : isNameChar x = false)
    (hrules : (choice rules expected).Accepts (x :: cs) k Q) :
    (choice (quotedString :: color :: number :: url :: callOver s inner? :: rules)
      expected).Accepts (x :: cs) k Q := by
  have hhead : ∀ y ∈ (x :: cs ++ k).head?, isNameChar y = false := head_cons hname
  have hstop : NumberStop (x :: cs ++ k) := head_cons hnumeric
  exact accepts_choice_plain hplain.1 hplain.2
    (accepts_choice_tail (number_refuses (numberLength?_none hstop))
      (accepts_choice_tail (url_refuses_head hhead)
        (accepts_choice_tail (callOver_refuses (name_refuses hhead)) hrules)))

theorem numberLength?_name {cs : List Char} (his : IsName cs) (h : numberLength? cs = none)
    (hk : NumberStop k) : numberLength? (cs ++ k) = none := by
  have htail := numberLength?_tail (t := cs) (k := []) (l := k) his.ne_nil hk
  rw [List.append_nil, h] at htail
  exact htail fun count hcount => by cases hcount

theorem same_of_isNumberValue {value : Text} {unit : Option Text} {u : Value}
    (hunit : ∀ t ∈ unit, t.chars ≠ [])
    (h : IsNumberValue value.chars ((unit.map Text.chars).getD []) u) :
    (Value.number value unit).same u = true := by
  obtain ⟨t, found, rfl, hvalue, hfound⟩ := h
  rw [Value.same, Text.same_iff.mpr hvalue.symm, Bool.true_and]
  cases unit with
  | none =>
    rw [Option.map_none, Option.getD_none, IsUnitText, if_pos rfl, Option.map_eq_none_iff] at hfound
    rw [hfound]
    rfl
  | some t =>
    rw [Option.map_some, Option.getD_some, IsUnitText, if_neg (hunit t rfl),
      Option.map_eq_some_iff] at hfound
    obtain ⟨u, rfl, hchars⟩ := hfound
    exact Text.same_iff.mpr hchars.symm

section

variable {expected : Option String}

/-- The choice between the rules for primitive values. -/
abbrev primitiveChoice (s : Settings) (inner? : Option (Rule Value)) (expected : Option String) :
    Rule Value :=
  choice
    [quotedString, color, number, url, callOver s inner?, map Value.variable atName,
      map Value.property (nameAfter ['$']), map Value.identifier name] expected

theorem accepts_choice_number {value : Text} {unit : Option Text}
    (h : (Value.number value unit).Written 0) (hk : Boundary k) :
    (primitiveChoice s inner? expected).Accepts (Value.number value unit).print k
      fun u => (Value.number value unit).same u = true := by
  have hnumber : number.Accepts (Value.number value unit).print k
      fun u => (Value.number value unit).same u = true :=
    accepts_mono (accepts_number h.1 hk) fun u hu =>
      same_of_isNumberValue (fun t ht => (h.2 t ht).1) hu
  obtain ⟨x, l, hvalue, hx⟩ := h.1.cons
  rw [Value.print, hvalue] at hnumber ⊢
  obtain ⟨hquote, hhash⟩ := isNumeric_plain hx
  exact accepts_choice_plain hquote hhash (accepts_choice_head hnumber)

/-- A name is read by what comes behind the rules for numbers and addresses. -/
theorem accepts_choice_name {rules : List (Rule Value)} {cs : List Char} {Q : Value → Prop}
    (text : List Char)
    (his : IsName cs) (hnumber : numberLength? (cs ++ (text ++ k)) = none)
    (hk : ∀ x ∈ (text ++ k).head?, isNameChar x = false)
    (hurl : CallsUrl cs → ∀ l, text ++ k = '(' :: l → opensQuoted (l.dropWhile isBlank) = true)
    (hrules : (choice rules expected).Accepts (cs ++ text) k Q) :
    (choice (quotedString :: color :: number :: url :: rules) expected).Accepts
      (cs ++ text) k Q := by
  have hurl' := url_refuses_name his hk hurl
  rw [← List.append_assoc] at hnumber hurl'
  obtain ⟨x, l, rfl, hx⟩ := his.cons
  obtain ⟨hquote, hhash, -⟩ := isNameChar_plain hx
  exact accepts_choice_plain hquote hhash
    (accepts_choice_tail (number_refuses hnumber) (accepts_choice_tail hurl' hrules))

/-- A name before which no number is read, and behind which no call opens. -/
theorem accepts_choice_plainName {cs : List Char} (his : IsName cs)
    (hnumber : numberLength? (cs ++ k) = none) (hname : ∀ x ∈ k.head?, isNameChar x = false)
    (hparen : ∀ x ∈ k.head?, x ≠ '(') :
    (primitiveChoice s inner? expected).Accepts cs k
      fun u => ∃ t, u = .identifier t ∧ t.chars = cs := by
  obtain ⟨x, l, hchars, hx⟩ := his.cons
  obtain ⟨-, -, hat, hdollar⟩ := isNameChar_plain hx
  have hrules : (choice [callOver s inner?, map Value.variable atName,
      map Value.property (nameAfter ['$']), map Value.identifier name] expected).Accepts
      (cs ++ []) k fun u => ∃ t, u = .identifier t ∧ t.chars = cs := by
    rw [List.append_nil]
    refine accepts_choice_tail (callOver_refuses_name his hname hparen)
      (accepts_choice_tail (map_refuses (atName_refuses ?_))
        (accepts_choice_tail (map_refuses (nameAfter_refuses ?_))
          (accepts_choice_head (accepts_map (accepts_mono (accepts_name his hname) ?_)))))
    · rw [hchars]
      exact head_cons hat
    · rw [hchars]
      exact head_cons hdollar
    · exact fun u hu => ⟨u, rfl, hu⟩
  have hurl : CallsUrl cs → ∀ l, [] ++ k = '(' :: l →
      opensQuoted (l.dropWhile isBlank) = true := by
    rintro - l rfl
    exact absurd rfl (hparen '(' rfl)
  have hall := accepts_choice_name [] his hnumber hname hurl hrules
  rw [List.append_nil] at hall
  exact hall

theorem accepts_choice_identifier {t : Text} (h : (Value.identifier t).Written 0)
    (hk : Boundary k) :
    (primitiveChoice s inner? expected).Accepts t.chars k
      fun u => (Value.identifier t).same u = true := by
  refine accepts_mono (accepts_choice_plainName h.1 (numberLength?_name h.1 h.2 hk.numberStop)
    (hk.stops isNameChar_boundary) (hk.head_ne (by decide))) ?_
  rintro _ ⟨u, rfl, hu⟩
  rw [Value.same]
  exact Text.same_iff.mpr hu.symm

theorem accepts_choice_call {levels : Nat} {argument : Rule Value} {t : Text} {vs : List Value}
    (h : (Value.call t vs).Written 0) (hlevels : Value.nestingAll vs ≤ levels)
    (hargument : Takes s argument 2 levels (Ends s.lineComments elementEnds))
    (hrefuses : ∀ k, argument.Refuses (')' :: k)) :
    (primitiveChoice s (some argument) expected).Accepts (Value.call t vs).print k
      fun u => (Value.call t vs).same u = true := by
  obtain ⟨⟨his, hnumber⟩, hurl, hall⟩ := h
  have hcall : (callOver s (some argument)).Accepts
      (t.chars ++ '(' :: (Value.argumentsText vs ++ [')'])) k
      fun u => (Value.call t vs).same u = true := by
    refine accepts_mono (accepts_callOver his (accepts_arguments hargument hrefuses
      (Value.allWritten_iff.mp hall) (Value.nestingAll_le.mp hlevels))) ?_
    rintro _ ⟨callee, us, rfl, hchars, hsame⟩
    rw [Value.same, hsame, Text.same_iff.mpr hchars.symm]
    rfl
  have hprint : (Value.call t vs).print
      = t.chars ++ '(' :: (Value.argumentsText vs ++ [')']) := by
    simp [Value.print, Value.argumentsText]
  rw [hprint]
  refine accepts_choice_name _ his (numberLength?_name his hnumber (head_cons rfl)) (head_cons rfl)
    (fun hcalls l hl => ?_) (accepts_choice_head hcall)
  obtain rfl := (List.cons.inj hl).2
  exact opensQuoted_dropWhile (opensQuoted_append (opensQuoted_append (hurl hcalls) _) _)

theorem accepts_choice_color {t : Text} (h : IsHex t.chars) (hk : Boundary k) :
    (primitiveChoice s inner? expected).Accepts ('#' :: t.chars) k
      fun u => (Value.color t).same u = true := by
  refine accepts_choice_tail (quotedString_refuses (head_cons rfl))
    (accepts_choice_head (accepts_mono (accepts_color h (hk.stops isNameChar_boundary)) ?_))
  rintro _ ⟨u, rfl, hu⟩
  rw [Value.same]
  exact Text.same_iff.mpr hu.symm

theorem accepts_choice_url {t : Text} (h : IsAddress t.chars) :
    (primitiveChoice s inner? expected).Accepts (Value.url t).print k
      fun u => (Value.url t).same u = true := by
  have hstop : NumberStop ((Value.url t).print ++ k) := head_cons rfl
  refine accepts_choice_plain rfl (by decide)
    (accepts_choice_tail (number_refuses (numberLength?_none hstop))
      (accepts_choice_head (accepts_mono (accepts_url h) ?_)))
  rintro _ ⟨u, rfl, hu⟩
  rw [Value.same]
  exact Text.same_iff.mpr hu.symm

theorem accepts_choice_variable {t : Text} (h : IsName t.chars) (hk : Boundary k) :
    (primitiveChoice s inner? expected).Accepts ('@' :: t.chars) k
      fun u => (Value.variable t).same u = true := by
  refine accepts_choice_marked (by decide) rfl rfl (accepts_choice_head
    (accepts_map (accepts_mono (accepts_atName h (hk.stops isNameChar_boundary)) ?_)))
  intro u hu
  rw [Value.same]
  exact Text.same_iff.mpr hu.symm

theorem accepts_choice_property {t : Text} (h : IsName t.chars) (hk : Boundary k) :
    (primitiveChoice s inner? expected).Accepts ('$' :: t.chars) k
      fun u => (Value.property t).same u = true := by
  have hat : ∀ y ∈ ('$' :: t.chars ++ k).head?, y ≠ '@' := head_cons (by decide)
  refine accepts_choice_marked (by decide) rfl rfl
    (accepts_choice_tail (map_refuses (atName_refuses hat)) (accepts_choice_head
      (accepts_map (accepts_mono (accepts_nameAfter h (hk.stops isNameChar_boundary)) ?_))))
  intro u hu
  rw [Value.same]
  exact Text.same_iff.mpr hu.symm

end

/-- A primitive value that can be written is read before a boundary, if the arguments of its calls
are read with one level less. -/
theorem primitive_takes {levels : Nat}
    (hinner : ∀ below, levels = below + 1 → ∃ argument, inner? = some argument ∧
      Takes s argument 2 below (Ends s.lineComments elementEnds) ∧
      ∀ k, argument.Refuses (')' :: k)) :
    Takes s (primitiveOver s inner?) 0 levels Boundary := by
  intro v w k hv hlevels hrun hk
  apply accepts_token hrun (Written.noTrivia hv k)
  match v, hv with
  | .string _ _, hv | .interpolated _ _ _, hv => exact accepts_choice_head (accepts_quotedString hv)
  | .color t, hv => exact accepts_choice_color hv hk
  | .number value unit, hv => exact accepts_choice_number hv hk
  | .url t, hv => exact accepts_choice_url hv
  | .call t vs, hv =>
    rw [Value.nesting] at hlevels
    obtain ⟨argument, rfl, hargument, hrefuses⟩ := hinner (levels - 1) (by omega)
    exact accepts_choice_call hv (by omega) hargument hrefuses
  | .variable t, hv => exact accepts_choice_variable hv hk
  | .property t, hv => exact accepts_choice_property hv hk
  | .identifier t, hv => exact accepts_choice_identifier hv hk
  | .list vs separator, hv =>
    have hrank := hv.1
    cases separator <;> simp [Separator.rank] at hrank

/-! ## All levels -/

theorem argument_takes (levels : Nat) :
    Takes s (spaceListOver s (argument? s levels)) 2 levels (Ends s.lineComments elementEnds) := by
  induction levels with
  | zero =>
    exact spaceList_takes (slashList_takes (primitive_takes fun below h => by omega))
  | succ levels ih =>
    refine spaceList_takes (slashList_takes (primitive_takes fun below h => ?_))
    obtain rfl : levels = below := by omega
    refine ⟨_, rfl, ih, fun k => ?_⟩
    exact spaceList_refuses .nil (noTrivia_cons (by decide) (by decide))
      (boundary_cons (by decide) k)

/-- A value that can be written and is nested no deeper than the levels that are left is read. -/
theorem valueAt_takes (levels : Nat) :
    Takes s (valueAt s levels) 3 levels (Ends s.lineComments valueEnds) :=
  commaList_takes (argument_takes levels)

end Grammar

end LessSyntax
