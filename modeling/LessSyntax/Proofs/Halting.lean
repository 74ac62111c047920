import LessSyntax.Proofs.Advancing
import LessSyntax.Proofs.Blame
import LessSyntax.Proofs.Viability

/-!
# Places of misses and failures

A rule that does not match names a place. What is known about that place depends on whether the
rule has missed there or failed, and for a failure also on the rule that had committed. Each way to
combine rules hands this on: a sequence asks it of its second rule behind the matches of the first
one, and a commitment turns the places of misses into places of failures.

* `Rule.Halts`: where a rule misses and fails when it starts at certain places.
* `halts_here`, `halts_of_blames_nil`: rules that stop where they start, and rules that never fail.
* `halts_bind`, `halts_choice`, `halts_cut`, `halts_many`, `halts_separated1`: combined rules.
-/

namespace LessSyntax

variable {α β γ : Type}

/-- Any place at all. -/
abbrev Cursor.Anywhere (_ : Cursor) : Prop := True

/-! ## Outcomes -/

namespace Outcome

variable {miss : Cursor → Prop} {fail : Cursor → String → Prop} {outcome : Outcome α}

/-- The place of a miss or a failure is one of those where that may be. -/
def Halts (outcome : Outcome α) (miss : Cursor → Prop) (fail : Cursor → String → Prop) : Prop :=
  match outcome with
  | .matched _ _ => True
  | .missed place _ => miss place
  | .failed place _ blamed => fail place blamed

theorem Halts.bind {next : α → Cursor → Outcome β} (h : outcome.Halts miss fail)
    (hnext : ∀ a mid, outcome = .matched a mid → (next a mid).Halts miss fail) :
    (outcome.bind next).Halts miss fail := by
  cases outcome with
  | matched a mid => exact hnext a mid rfl
  | missed place expected => exact h
  | failed place expected blamed => exact h

theorem Halts.map {f : α → β} (h : outcome.Halts miss fail) : (outcome.map f).Halts miss fail :=
  h.bind fun _ _ _ => trivial

theorem Halts.relabel (label : Option String) (h : outcome.Halts miss fail) :
    (outcome.relabel label).Halts miss fail := by
  cases outcome <;> cases label <;> exact h

theorem Halts.orElse {second : Unit → Outcome α} (h : outcome.Halts miss fail)
    (hsecond : (second ()).Halts miss fail) : (outcome.orElse second).Halts miss fail := by
  unfold Outcome.orElse
  cases outcome with
  | matched v rest => trivial
  | failed place expected blamed => exact h
  | missed place expected =>
    dsimp only
    cases hlater : second () with
    | matched v rest => trivial
    | failed place' expected' blamed =>
      rw [hlater] at hsecond
      exact hsecond
    | missed place' expected' =>
      rw [hlater] at hsecond
      dsimp only
      split
      · exact hsecond
      · exact h

end Outcome

namespace Rule

variable {start mid miss miss' : Cursor → Prop} {fail : Cursor → String → Prop} {rule : Rule α}

/-- From the places in the text where it may start, the rule misses and fails at places of the given
kinds only. -/
def Halts (rule : Rule α) (start miss : Cursor → Prop) (fail : Cursor → String → Prop) : Prop :=
  ∀ c, c.Within → start c → (rule c).Halts miss fail

theorem Halts.mono_start {start' : Cursor → Prop} (h : rule.Halts start miss fail)
    (hstart : ∀ c, start' c → start c) : rule.Halts start' miss fail :=
  fun c hc hc' => h c hc (hstart c hc')

/-- A rule that stops only where it starts. -/
theorem halts_here (hstops : ∀ {c place}, c.Within → (rule c).StopsAt place → place = c)
    (hmiss : ∀ c, start c → miss c) (hfail : ∀ c blamed, start c → fail c blamed) :
    rule.Halts start miss fail := by
  intro c hc hstart
  cases h : rule c with
  | matched v rest => trivial
  | missed place expected =>
    obtain rfl := hstops hc (by rw [h]; exact .missed)
    exact hmiss place hstart
  | failed place expected blamed =>
    obtain rfl := hstops hc (by rw [h]; exact .failed)
    exact hfail place blamed hstart

/-- A rule that never fails, and of whose misses nothing is asked. -/
theorem halts_of_blames_nil (h : rule.Blames []) : rule.Halts start Cursor.Anywhere fail := by
  intro c _ _
  cases hrule : rule c with
  | matched v rest => trivial
  | missed place expected => trivial
  | failed place expected blamed => exact absurd (h c place expected blamed hrule) (by simp)

/-- Where a rule does not miss, its misses can be anywhere. -/
theorem halts_of_commits {c : Cursor} (h : (rule c).Halts miss fail)
    (hcommits : ¬ MissesAt rule c) : (rule c).Halts miss' fail := by
  cases hrule : rule c with
  | matched v rest => trivial
  | missed place expected => exact absurd ⟨place, expected, hrule⟩ hcommits
  | failed place expected blamed =>
    rw [hrule] at h
    exact h

/-! ## Sequences -/

/-- The second rule starts where the first one may end. -/
theorem halts_bind {next : α → Rule β} (hrule : rule.Halts start miss fail)
    (hmid : rule.Ensures fun _ _ rest => mid rest) (hnext : ∀ a, (next a).Halts mid miss fail) :
    Halts (fun c => (rule c).bind next) start miss fail := by
  intro c hc hstart
  refine (hrule c hc hstart).bind fun a rest h => ?_
  obtain ⟨hreach, hrest⟩ := hmid c a rest hc h
  exact hnext a rest (hreach.within hc) hrest

theorem halts_map {f : α → β} (hrule : rule.Halts start miss fail) :
    (map f rule).Halts start miss fail :=
  fun c hc hstart => (hrule c hc hstart).map

theorem halts_both {second : Rule β} (hrule : rule.Halts start miss fail)
    (hmid : rule.Ensures fun _ _ rest => mid rest) (hsecond : second.Halts mid miss fail) :
    (both rule second).Halts start miss fail :=
  halts_bind hrule hmid fun _ => halts_map hsecond

theorem halts_preceded {before : Rule β} (hbefore : before.Halts start miss fail)
    (hmid : before.Ensures fun _ _ rest => mid rest) (hrule : rule.Halts mid miss fail) :
    (preceded before rule).Halts start miss fail :=
  halts_map (halts_both hbefore hmid hrule)

theorem halts_terminated {after : Rule β} (hrule : rule.Halts start miss fail)
    (hmid : rule.Ensures fun _ _ rest => mid rest) (hafter : after.Halts mid miss fail) :
    (terminated rule after).Halts start miss fail :=
  halts_map (halts_both hrule hmid hafter)

/-! ## Choices and commitments -/

theorem halts_choice {rules : List (Rule α)} {label : Option String}
    (hrules : ∀ r ∈ rule :: rules, Halts r start miss fail) :
    (choice (rule :: rules) label).Halts start miss fail := by
  intro c hc hstart
  refine Outcome.Halts.relabel label ?_
  induction rules generalizing rule with
  | nil => exact hrules rule List.mem_cons_self c hc hstart
  | cons next rules ih =>
    exact (hrules rule List.mem_cons_self c hc hstart).orElse
      (ih fun r hr => hrules r (List.mem_cons_of_mem _ hr))

/-- Where a rule may be left out its misses do not count. -/
theorem halts_opt (hrule : rule.Halts start miss fail) : (opt rule).Halts start miss' fail := by
  intro c hc hstart
  have houtcome := hrule c hc hstart
  unfold opt
  cases h : rule c with
  | matched v rest => trivial
  | missed place expected => trivial
  | failed place expected blamed =>
    rw [h] at houtcome
    exact houtcome

theorem halts_peek (hrule : rule.Halts start miss fail) : (peek rule).Halts start miss fail := by
  intro c hc hstart
  have houtcome := hrule c hc hstart
  unfold peek
  cases h : rule c with
  | matched v rest => trivial
  | missed place expected | failed place expected blamed =>
    rw [h] at houtcome
    exact houtcome

theorem halts_cut {context : String} (hrule : rule.Halts start miss fail)
    (hcontext : ∀ place, miss place → fail place context) :
    (cut rule context).Halts start miss' fail := by
  intro c hc hstart
  have houtcome := hrule c hc hstart
  unfold cut
  cases h : rule c with
  | matched v rest => trivial
  | missed place expected =>
    rw [h] at houtcome
    exact hcontext place houtcome
  | failed place expected blamed =>
    rw [h] at houtcome
    exact houtcome

/-! ## Repetitions -/

/-- A repetition ends with a miss, so that only failures count. -/
theorem halts_manyUpTo (hrule : rule.Halts Cursor.Anywhere miss fail) (hproceeds : rule.Proceeds)
    (bound : Nat) : (manyUpTo rule bound).Halts start miss' fail := by
  induction bound using Nat.strongRecOn generalizing start with
  | ind bound ih =>
    intro c hc _
    have houtcome := hrule c hc trivial
    unfold manyUpTo
    cases h : rule c with
    | missed place expected => trivial
    | failed place expected blamed =>
      rw [h] at houtcome
      exact houtcome
    | matched v rest =>
      dsimp only
      split
      · trivial
      · cases bound with
        | zero => trivial
        | succ bound =>
          have hrest := (hproceeds c v rest hc h).1.within hc
          have hmore : (manyUpTo rule bound).Halts Cursor.Anywhere miss' fail :=
            ih bound (Nat.lt_succ_self bound)
          exact (hmore rest hrest trivial).map

theorem halts_many (hrule : rule.Halts Cursor.Anywhere miss fail) (hproceeds : rule.Proceeds) :
    (many rule).Halts start miss' fail :=
  fun c => halts_manyUpTo hrule hproceeds c.room c

theorem halts_many1 (hrule : rule.Halts Cursor.Anywhere miss fail) (hproceeds : rule.Proceeds) :
    (many1 rule).Halts start miss fail :=
  halts_bind (hrule.mono_start fun _ _ => trivial) hproceeds fun _ =>
    halts_map (halts_many hrule hproceeds)

/-- A separator commits, so that behind it a miss is a failure. -/
theorem halts_separated1 {separator : Rule β} {context : String}
    (hrule : rule.Halts Cursor.Anywhere miss fail)
    (hseparator : separator.Halts Cursor.Anywhere miss fail) (hproceeds : rule.Proceeds)
    (hadvances : separator.Advances) (hcontext : ∀ place, miss place → fail place context) :
    (separated1 rule separator context).Halts start miss fail := by
  intro c hc _
  have hstep : (preceded separator (cut rule context)).Halts Cursor.Anywhere miss fail :=
    halts_preceded hseparator hadvances.proceeds (halts_cut hrule hcontext)
  have hmore : (preceded separator (cut rule context)).Proceeds :=
    ensures_preceded hadvances.proceeds (ensures_cut hproceeds) fun _ _ _ _ _ _ _ _ _ => trivial
  rw [separated1_eq hproceeds hadvances hc]
  exact halts_map (halts_both hrule hproceeds (halts_many hstep hmore)) c hc trivial

end Rule

end LessSyntax
