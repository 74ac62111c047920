import LessSyntax.Rule.Basic

/-!
# What failures name

A failure names the rule that had committed. Each way to combine rules adds no name, except a
commitment, which adds its own.

* `Blames`: the names that the failures of a rule may have, with one lemma for each way to combine
  rules.
-/

namespace LessSyntax.Rule

variable {α β : Type} {rule : Rule α} {names : List String}

/-- A failure of the rule names one of the given rules. -/
def Blames (rule : Rule α) (names : List String) : Prop :=
  ∀ c place expected blamed, rule c = .failed place expected blamed → blamed ∈ names

theorem blames_bind {next : α → Rule β} (hrule : rule.Blames names)
    (hnext : ∀ a, (next a).Blames names) : Blames (fun c => (rule c).bind next) names := by
  intro c place expected blamed h
  dsimp only at h
  cases hfirst : rule c with
  | matched a mid =>
    rw [hfirst] at h
    exact hnext a mid place expected blamed h
  | missed place' expected' =>
    rw [hfirst] at h
    cases h
  | failed place' expected' blamed' =>
    rw [hfirst] at h
    cases h
    exact hrule c _ _ _ hfirst

theorem blames_map {f : α → β} (hrule : rule.Blames names) : (map f rule).Blames names :=
  blames_bind hrule fun _ _ _ _ _ h => by cases h

theorem blames_both {second : Rule β} (hrule : rule.Blames names)
    (hsecond : second.Blames names) : (both rule second).Blames names :=
  blames_bind hrule fun _ => blames_map hsecond

theorem blames_preceded {before : Rule β} (hbefore : before.Blames names)
    (hrule : rule.Blames names) : (preceded before rule).Blames names :=
  blames_map (blames_both hbefore hrule)

theorem blames_terminated {after : Rule β} (hrule : rule.Blames names)
    (hafter : after.Blames names) : (terminated rule after).Blames names :=
  blames_map (blames_both hrule hafter)

theorem blames_firstOf {rules : List (Rule α)} (hrule : rule.Blames names)
    (hrules : ∀ r ∈ rules, Blames r names) : (firstOf rule rules).Blames names := by
  induction rules generalizing rule with
  | nil => exact hrule
  | cons next rules ih =>
    have hlater : (firstOf next rules).Blames names :=
      ih (hrules next List.mem_cons_self) fun r hr => hrules r (List.mem_cons_of_mem _ hr)
    intro c place expected blamed h
    unfold firstOf Outcome.orElse at h
    split at h
    · dsimp only at h
      split at h
      · split at h <;> cases h
      · exact hlater c place expected blamed h
    · exact hrule c place expected blamed h

theorem blames_choice {rules : List (Rule α)} {expected : Option String}
    (hrules : ∀ r ∈ rules, Blames r names) : (choice rules expected).Blames names := by
  intro c place label blamed h
  cases rules with
  | nil => cases h
  | cons rule rules =>
    unfold choice Outcome.relabel at h
    dsimp only at h
    split at h
    · cases h
    · exact blames_firstOf (hrules rule List.mem_cons_self)
        (fun r hr => hrules r (List.mem_cons_of_mem _ hr)) c place label blamed h

theorem blames_cut {context : String} (hrule : rule.Blames names) (hcontext : context ∈ names) :
    (cut rule context).Blames names := by
  intro c place expected blamed h
  unfold cut at h
  split at h
  · cases h
    exact hcontext
  · exact hrule c place expected blamed h

theorem blames_manyUpTo (hrule : rule.Blames names) (bound : Nat) :
    (manyUpTo rule bound).Blames names := by
  induction bound with
  | zero =>
    intro c place expected blamed h
    unfold manyUpTo at h
    split at h
    · rename_i hfailed
      cases h
      exact hrule c _ _ _ hfailed
    · cases h
    · dsimp only at h
      split at h <;> cases h
  | succ bound ih =>
    intro c place expected blamed h
    unfold manyUpTo at h
    split at h
    · rename_i hfailed
      cases h
      exact hrule c _ _ _ hfailed
    · cases h
    · split at h
      · cases h
      · exact blames_map ih _ place expected blamed h

theorem blames_many1 (hrule : rule.Blames names) : (many1 rule).Blames names :=
  blames_bind hrule fun _ => blames_map fun c => blames_manyUpTo hrule c.room c

theorem blames_literal (chars : List Char) : (literal chars).Blames names := by
  intro c place expected blamed h
  unfold literal at h
  split at h <;> cases h

theorem blames_scan (length? : List Char → Option Nat) (label : String) :
    (scan length? label).Blames names := by
  intro c place expected blamed h
  unfold scan at h
  split at h <;> cases h

end LessSyntax.Rule
