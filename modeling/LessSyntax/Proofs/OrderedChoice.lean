import LessSyntax.Proofs.Reading

/-!
# Ordered choice

A choice runs its rules in order. The first rule that does not miss decides; where all rules miss,
the first of the misses that got furthest is reported. Neither depends on how the rules are
grouped: a choice among the rules of a choice is the choice among all of them, with the same
diagnostics.

* `Outcome.orElse_assoc`: of three misses, the first that got furthest counts, whichever two are
  compared first.
* `Chosen`: what a choice comes to, stated over the whole list of its rules.
* `choice_eq_iff_chosen`: a choice comes to that and to nothing else.
* `choice_assoc`: a choice among the rules of a choice.
-/

namespace LessSyntax

variable {α : Type}

/-! ## Two outcomes, and three -/

namespace Outcome

/-- The outcome is a miss. -/
def IsMiss (outcome : Outcome α) : Prop := ∃ place expected, outcome = .missed place expected

theorem orElse_of_not_miss {first : Outcome α} {second : Unit → Outcome α} (h : ¬ first.IsMiss) :
    first.orElse second = first := by
  cases first with
  | missed place expected => exact absurd ⟨place, expected, rfl⟩ h
  | matched v rest => rfl
  | failed place expected rule => rfl

theorem missed_orElse_of_not_miss {place : Cursor} {expected : String} {outcome : Outcome α}
    (h : ¬ outcome.IsMiss) : (missed place expected).orElse (fun _ => outcome) = outcome := by
  cases outcome with
  | missed place' expected' => exact absurd ⟨place', expected', rfl⟩ h
  | matched v rest => rfl
  | failed place' expected' rule => rfl

theorem missed_orElse_missed {place place' : Cursor} {expected expected' : String}
    {second : Unit → Outcome α} (h : second () = missed place' expected') :
    (missed place expected).orElse second =
      if place.pos < place'.pos then missed place' expected' else missed place expected := by
  simp only [orElse, h]

/-- Of three misses, the first that got furthest counts, whichever two are compared first. -/
theorem orElse_assoc (first : Outcome α) (second third : Unit → Outcome α) :
    (first.orElse second).orElse third = first.orElse fun _ => (second ()).orElse third := by
  cases first with
  | matched v rest => rfl
  | failed place expected rule => rfl
  | missed place expected =>
    cases hsecond : second () with
    | matched v rest => simp only [orElse, hsecond]
    | failed place' expected' rule => simp only [orElse, hsecond]
    | missed place' expected' =>
      rw [missed_orElse_missed hsecond]
      cases hthird : third () with
      | matched v rest => split <;> simp only [orElse, hthird]
      | failed place'' expected'' rule => split <;> simp only [orElse, hthird]
      | missed place'' expected'' =>
        -- The three places are compared in two orders.
        rw [missed_orElse_missed hthird]
        split <;> split <;> simp only [orElse, hthird] <;> grind

@[simp]
theorem relabel_none (outcome : Outcome α) : outcome.relabel none = outcome := by
  cases outcome <;> rfl

theorem relabel_of_not_miss {outcome : Outcome α} (h : ¬ outcome.IsMiss) (label : Option String) :
    outcome.relabel label = outcome := by
  cases outcome with
  | missed place expected => exact absurd ⟨place, expected, rfl⟩ h
  | matched v rest => rfl
  | failed place expected rule => rfl

theorem relabel_missed (place : Cursor) (expected : String) (label : Option String) :
    (missed place expected : Outcome α).relabel label = missed place (label.getD expected) := by
  cases label <;> rfl

end Outcome

namespace Rule

variable {c : Cursor} {rule : Rule α} {rules : List (Rule α)} {label : Option String}

/-! ## Grouping -/

theorem firstOf_append_cons (rule : Rule α) (rules : List (Rule α)) (next : Rule α)
    (after : List (Rule α)) (c : Cursor) :
    firstOf rule (rules ++ next :: after) c =
      (firstOf rule rules c).orElse fun _ => firstOf next after c := by
  induction rules generalizing rule with
  | nil => rfl
  | cons second rules ih =>
    rw [List.cons_append, firstOf, ih second, firstOf, Outcome.orElse_assoc]

/-- A choice without a label, tried first, stands for its rules. -/
theorem firstOf_choice (rule : Rule α) (rules after : List (Rule α)) (c : Cursor) :
    firstOf (choice (rule :: rules) none) after c = firstOf rule (rules ++ after) c := by
  have hgroup : choice (rule :: rules) none c = firstOf rule rules c := Outcome.relabel_none _
  cases after with
  | nil => rw [firstOf, hgroup, List.append_nil]
  | cons next after => rw [firstOf, hgroup, firstOf_append_cons]

/-- A choice without a label, tried at any place in the order, stands for its rules. -/
theorem choice_group (before : List (Rule α)) (rule : Rule α) (rules after : List (Rule α))
    (label : Option String) :
    choice (before ++ choice (rule :: rules) none :: after) label =
      choice (before ++ (rule :: rules ++ after)) label := by
  funext c
  cases before with
  | nil => exact congrArg (Outcome.relabel label) (firstOf_choice rule rules after c)
  | cons first before =>
    refine congrArg (Outcome.relabel label) ?_
    show firstOf first (before ++ choice (rule :: rules) none :: after) c =
      firstOf first (before ++ rule :: (rules ++ after)) c
    rw [firstOf_append_cons, firstOf_append_cons, firstOf_choice]

/-! ## What is chosen -/

/-- What the choice among the rules comes to at the cursor. A rule that does not miss decides if
all rules before it miss. Where all miss, the miss of a rule is reported if those before it missed
at nearer places and those behind it got no further; a label stands in for what it expected. -/
inductive Chosen (c : Cursor) (label : Option String) : List (Rule α) → Outcome α → Prop
  | decided {before after : List (Rule α)} {rule : Rule α} (hbefore : ∀ r ∈ before, MissesAt r c)
      (hrule : ¬ MissesAt rule c) : Chosen c label (before ++ rule :: after) (rule c)
  | missed {before after : List (Rule α)} {rule : Rule α} {place : Cursor} {expected : String}
      (hbefore : ∀ r ∈ before, ∃ place' expected', r c = .missed place' expected' ∧
        place'.pos < place.pos)
      (hrule : rule c = .missed place expected)
      (hafter : ∀ r ∈ after, ∃ place' expected', r c = .missed place' expected' ∧
        place'.pos ≤ place.pos) :
      Chosen c label (before ++ rule :: after) (.missed place (label.getD expected))

namespace Chosen

/-- A rule before the others that does not miss decides at once. -/
theorem head (hrule : ¬ MissesAt rule c) (rules : List (Rule α)) :
    Chosen c label (rule :: rules) (rule c) := by
  show Chosen c label ([] ++ rule :: rules) (rule c)
  exact .decided (by simp) hrule

/-- A rule before the others that misses counts only where all of them miss, and got no further. -/
theorem cons {outcome : Outcome α} (hrule : MissesAt rule c) (h : Chosen c none rules outcome) :
    Chosen c none (rule :: rules) ((rule c).orElse fun _ => outcome) := by
  obtain ⟨place, expected, hrule⟩ := hrule
  rw [hrule]
  cases h with
  | @decided before after decider hbefore hdecider =>
    rw [Outcome.missed_orElse_of_not_miss hdecider, ← List.cons_append]
    exact .decided (List.forall_mem_cons.mpr ⟨⟨place, expected, hrule⟩, hbefore⟩) hdecider
  | @missed before after furthest place' expected' hbefore hfurthest hafter =>
    rw [Outcome.missed_orElse_missed rfl]
    split
    · rename_i hfurther
      rw [← List.cons_append]
      exact .missed (List.forall_mem_cons.mpr ⟨⟨place, expected, hrule, hfurther⟩, hbefore⟩)
        hfurthest hafter
    · rename_i hfirst
      show Chosen c none ([] ++ rule :: (before ++ furthest :: after)) _
      refine .missed (by simp) hrule fun r hr => ?_
      rcases List.mem_append.mp hr with hr | hr
      · obtain ⟨place'', expected'', hr, hpos⟩ := hbefore r hr
        exact ⟨place'', expected'', hr, by omega⟩
      · rcases List.mem_cons.mp hr with rfl | hr
        · exact ⟨place', expected', hfurthest, by omega⟩
        · obtain ⟨place'', expected'', hr, hpos⟩ := hafter r hr
          exact ⟨place'', expected'', hr, by omega⟩

/-- A label changes what a miss says, and nothing else. -/
theorem relabel {outcome : Outcome α} (h : Chosen c none rules outcome)
    (label : Option String) : Chosen c label rules (outcome.relabel label) := by
  cases h with
  | @decided before after decider hbefore hdecider =>
    rw [Outcome.relabel_of_not_miss hdecider]
    exact .decided hbefore hdecider
  | missed hbefore hrule hafter =>
    rw [Outcome.relabel_missed]
    exact .missed hbefore hrule hafter

end Chosen

theorem firstOf_chosen (rule : Rule α) (rules : List (Rule α)) (c : Cursor) :
    Chosen c none (rule :: rules) (firstOf rule rules c) := by
  induction rules generalizing rule with
  | nil =>
    by_cases hrule : MissesAt rule c
    · obtain ⟨place, expected, hrule⟩ := hrule
      show Chosen c none ([] ++ [rule]) (rule c)
      rw [hrule]
      exact .missed (by simp) hrule (by simp)
    · exact .head hrule []
  | cons next rules ih =>
    rw [firstOf]
    by_cases hrule : MissesAt rule c
    · exact (ih next).cons hrule
    · rw [Outcome.orElse_of_not_miss hrule]
      exact .head hrule (next :: rules)

/-- What a choice comes to is chosen among its rules. -/
theorem choice_chosen (rule : Rule α) (rules : List (Rule α)) (label : Option String) (c : Cursor) :
    Chosen c label (rule :: rules) (choice (rule :: rules) label c) :=
  (firstOf_chosen rule rules c).relabel label

/-! ## Nothing else is chosen -/

/-- Where all rules miss, the place reported is that of one of them. -/
theorem firstOf_missed {Q : Cursor → Prop}
    (h : ∀ r ∈ rule :: rules, ∃ place expected, r c = .missed place expected ∧ Q place) :
    ∃ place expected, firstOf rule rules c = .missed place expected ∧ Q place := by
  have hchosen := firstOf_chosen rule rules c
  generalize rule :: rules = all, firstOf rule rules c = outcome at h hchosen
  cases hchosen with
  | decided _ hrule =>
    obtain ⟨place, expected, hmiss, -⟩ := h _ List.mem_append_cons_self
    exact absurd ⟨place, expected, hmiss⟩ hrule
  | missed _ hrule _ =>
    obtain ⟨place, expected, hmiss, hQ⟩ := h _ List.mem_append_cons_self
    rw [hrule] at hmiss
    cases hmiss
    exact ⟨_, _, rfl, hQ⟩

/-- A rule that does not miss is not followed by others. -/
theorem firstOf_of_not_misses (hrule : ¬ MissesAt rule c) (rules : List (Rule α)) :
    firstOf rule rules c = rule c := by
  cases rules with
  | nil => rfl
  | cons next rules => rw [firstOf, Outcome.orElse_of_not_miss hrule]

/-- Of misses that got no further than the first one, the first counts. -/
theorem firstOf_of_missed {place : Cursor} {expected : String}
    (hrule : rule c = .missed place expected)
    (hrules : ∀ r ∈ rules, ∃ place' expected', r c = .missed place' expected' ∧
      place'.pos ≤ place.pos) : firstOf rule rules c = .missed place expected := by
  cases rules with
  | nil => exact hrule
  | cons next rules =>
    obtain ⟨place', expected', hlater, hpos⟩ := firstOf_missed (Q := (·.pos ≤ place.pos)) hrules
    rw [firstOf, hrule, Outcome.missed_orElse_missed hlater, if_neg (by omega)]

/-- Rules that miss do not count before others that come to something further on. -/
theorem choice_behind_misses {before after : List (Rule α)} {Q : Cursor → Prop}
    {outcome : Outcome α}
    (hbefore : ∀ r ∈ before, ∃ place expected, r c = .missed place expected ∧ Q place)
    (hlater : ∀ place expected, Q place →
      (Outcome.missed place expected).orElse (fun _ => outcome) = outcome)
    (h : firstOf rule after c = outcome) :
    choice (before ++ rule :: after) label c = outcome.relabel label := by
  cases before with
  | nil => exact congrArg (Outcome.relabel label) h
  | cons first before =>
    refine congrArg (Outcome.relabel label) ?_
    obtain ⟨place, expected, hmiss, hplace⟩ := firstOf_missed hbefore
    show firstOf first (before ++ rule :: after) c = outcome
    rw [firstOf_append_cons, hmiss, h, hlater place expected hplace]

theorem Chosen.choice_eq {outcome : Outcome α} (h : Chosen c label rules outcome) :
    choice rules label c = outcome := by
  cases h with
  | @decided before after rule hbefore hrule =>
    rw [choice_behind_misses (Q := fun _ => True)
        (fun r hr => (hbefore r hr).imp fun _ => Exists.imp fun _ hr => ⟨hr, trivial⟩)
        (fun place expected _ => Outcome.missed_orElse_of_not_miss hrule)
        (firstOf_of_not_misses hrule after),
      Outcome.relabel_of_not_miss hrule]
  | @missed before after rule place expected hbefore hrule hafter =>
    rw [choice_behind_misses (Q := (·.pos < place.pos)) hbefore
        (fun place' expected' hpos => (Outcome.missed_orElse_missed rfl).trans (if_pos hpos))
        (firstOf_of_missed hrule hafter),
      Outcome.relabel_missed]

/-- A choice of one or more rules comes to what is chosen among them, and to nothing else. -/
theorem choice_eq_iff_chosen (hne : rules ≠ []) {outcome : Outcome α} :
    choice rules label c = outcome ↔ Chosen c label rules outcome := by
  obtain ⟨rule, rules, rfl⟩ := List.exists_cons_of_ne_nil hne
  constructor
  · rintro rfl
    exact choice_chosen rule rules label c
  · exact Chosen.choice_eq

/-- A choice may be grouped: a choice of one or more rules among others has the outcome of its
rules in its place, match, failure or miss. A miss is the first of those that got furthest, with
the label of the outer choice if there is one. -/
theorem choice_assoc (before : List (Rule α)) (rule : Rule α) (rules after : List (Rule α))
    (label : Option String) (c : Cursor) :
    choice (before ++ choice (rule :: rules) none :: after) label c =
        choice (before ++ (rule :: rules ++ after)) label c ∧
      ∀ outcome, choice (before ++ choice (rule :: rules) none :: after) label c = outcome ↔
        Chosen c label (before ++ (rule :: rules ++ after)) outcome := by
  rw [choice_group]
  exact ⟨rfl, fun outcome => choice_eq_iff_chosen (by simp)⟩

/-- The first of two misses at one place is reported, in whichever group it stands. -/
example : choice [choice [literal ['a'], literal ['b']] none, literal ['c']] none
    (Cursor.ofText ['d']) = .missed (Cursor.ofText ['d']) (quoted ['a']) := rfl

end Rule

end LessSyntax
