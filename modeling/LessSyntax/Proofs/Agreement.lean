import LessSyntax.Proofs.Advancing

/-!
# Two runs on different texts

The same rule is run on two texts, from two cursors that are related in some way. The runs agree
when the second one does what the first one does: it matches with the same value where that one
matches, and the cursors behind are related again; and it misses where that one misses. Where the
first run fails, nothing is said about the second one.

* `Agree`: how the outcomes of the two runs are related.
* `Rule.Agrees`: the same for rules. There is one lemma for each way to combine rules:
  `agrees_bind`, `agrees_both`, `agrees_choice`, `agrees_cut`, `agrees_opt`, `agrees_many`,
  `agrees_separated1`.
* `Rule.Follows`: the runs agree unless the first one misses. Where the first run is committed, such
  a miss is a failure (`agrees_cut_of_follows`).
-/

namespace LessSyntax

variable {α β : Type} {doomed doomed' : Prop}

/-- The outcomes of two runs. The first one may also match up to the end of its text where it is
doomed to fail there; then nothing is said about the second one. -/
inductive Agree (doomed : Prop) (K : α → Cursor → α → Cursor → Prop) :
    Outcome α → Outcome α → Prop
  | matched {v v' : α} {rest rest' : Cursor} (h : K v rest v' rest') :
    Agree doomed K (.matched v rest) (.matched v' rest')
  | missed {place place' : Cursor} {expected expected' : String} :
    Agree doomed K (.missed place expected) (.missed place' expected')
  | failed {place : Cursor} {expected rule : String} {b : Outcome α} :
    Agree doomed K (.failed place expected rule) b
  | ended {v : α} {rest : Cursor} {b : Outcome α} (hdoomed : doomed) (hrest : rest.Within)
    (hend : rest.ahead = []) : Agree doomed K (.matched v rest) b

section

variable {K : α → Cursor → α → Cursor → Prop} {K' : β → Cursor → β → Cursor → Prop}
  {a b : Outcome α}

theorem Agree.mono {L : α → Cursor → α → Cursor → Prop} (h : Agree doomed K a b)
    (hK : ∀ v rest v' rest', K v rest v' rest' → L v rest v' rest') (hdoomed : doomed → doomed') :
    Agree doomed' L a b := by
  cases h with
  | matched h => exact .matched (hK _ _ _ _ h)
  | missed => exact .missed
  | failed => exact .failed
  | ended hd hrest hend => exact .ended (hdoomed hd) hrest hend

theorem Agree.bind {next next' : α → Cursor → Outcome β} (h : Agree doomed K a b)
    (hnext : ∀ v rest v' rest', K v rest v' rest' →
      Agree doomed' K' (next v rest) (next' v' rest'))
    (hended : ∀ v rest o, doomed → rest.Within → rest.ahead = [] →
      Agree doomed' K' (next v rest) o) :
    Agree doomed' K' (a.bind next) (b.bind next') := by
  cases h with
  | matched h => exact hnext _ _ _ _ h
  | missed => exact .missed
  | failed => exact .failed
  | ended hd hrest hend => exact hended _ _ _ hd hrest hend

theorem Agree.map {f f' : α → β} (h : Agree doomed K a b)
    (hf : ∀ v rest v' rest', K v rest v' rest' → K' (f v) rest (f' v') rest') :
    Agree doomed K' (a.map f) (b.map f') :=
  h.bind (fun _ _ _ _ hK => .matched (hf _ _ _ _ hK)) fun _ _ _ hd hrest hend =>
    .ended hd hrest hend

theorem Agree.orElse {second second' : Unit → Outcome α} (h : Agree doomed K a b)
    (hsecond : Agree doomed K (second ()) (second' ())) :
    Agree doomed K (a.orElse second) (b.orElse second') := by
  cases h with
  | matched h => exact .matched h
  | failed => exact .failed
  | ended hd hrest hend => exact .ended hd hrest hend
  | missed =>
    unfold Outcome.orElse
    dsimp only
    generalize second () = o at hsecond ⊢
    generalize second' () = o' at hsecond ⊢
    cases hsecond with
    | matched h => exact .matched h
    | failed => exact .failed
    | ended hd hrest hend => exact .ended hd hrest hend
    | missed =>
      dsimp only
      split <;> split <;> exact .missed

theorem Agree.relabel (h : Agree doomed K a b) (expected : Option String) :
    Agree doomed K (a.relabel expected) (b.relabel expected) := by
  cases h with
  | matched h => exact .matched h
  | failed => exact .failed
  | ended hd hrest hend => exact .ended hd hrest hend
  | missed => cases expected <;> exact .missed

end

/-- The same value, and related cursors behind it. -/
def Same (Q : Cursor → Cursor → Prop) (v : α) (rest : Cursor) (v' : α) (rest' : Cursor) : Prop :=
  v = v' ∧ Q rest rest'

/-! ## Rules -/

namespace Rule

variable {P Q R : Cursor → Cursor → Prop} {rule : Rule α} {context : String}

/-- From cursors related by `P` the runs agree, and the cursors behind are related by `Q`. -/
def Agrees (doomed : Prop) (P Q : Cursor → Cursor → Prop) (rule : Rule α) : Prop :=
  ∀ c c' : Cursor, P c c' → Agree doomed (Same Q) (rule c) (rule c')

/-- The same without regard to the values. -/
def Leads (doomed : Prop) (P Q : Cursor → Cursor → Prop) (rule : Rule α) : Prop :=
  ∀ c c' : Cursor, P c c' →
    Agree doomed (fun _ rest _ rest' => Q rest rest') (rule c) (rule c')

theorem Agrees.leads (h : rule.Agrees doomed P Q) : rule.Leads doomed P Q :=
  fun c c' hP => (h c c' hP).mono (fun _ _ _ _ hK => hK.2) id

theorem Agrees.mono (h : rule.Agrees doomed P Q) (hQ : ∀ c c', Q c c' → R c c')
    (hdoomed : doomed → doomed') : rule.Agrees doomed' P R :=
  fun c c' hP => (h c c' hP).mono (fun _ _ _ _ hK => ⟨hK.1, hQ _ _ hK.2⟩) hdoomed

/-- At the end of the text the rule fails. -/
def FailsAtEnd (rule : Rule α) : Prop :=
  ∀ c : Cursor, c.Within → c.ahead = [] →
    ∃ place expected blamed, rule c = .failed place expected blamed

theorem failsAtEnd_map {f : α → β} (h : rule.FailsAtEnd) : (map f rule).FailsAtEnd := by
  intro c hc hnil
  obtain ⟨place, expected, blamed, hfails⟩ := h c hc hnil
  exact ⟨place, expected, blamed, by rw [map, hfails]; rfl⟩

/-- Where the first run is at the end of its text, it may count as doomed. -/
theorem Agrees.ended (h : rule.Agrees doomed P Q)
    (hQ : ∀ c c', Q c c' → R c c' ∨ c.Within ∧ c.ahead = []) : rule.Agrees True P R := by
  intro c c' hP
  have houtcome := h c c' hP
  generalize rule c = a at houtcome
  generalize rule c' = b at houtcome
  cases houtcome with
  | missed => exact .missed
  | failed => exact .failed
  | ended _ hrest hnil => exact .ended trivial hrest hnil
  | matched h =>
    rcases hQ _ _ h.2 with hR | ⟨hrest, hnil⟩
    · exact .matched ⟨h.1, hR⟩
    · exact .ended trivial hrest hnil

theorem agrees_bind {next : α → Rule β} (hrule : rule.Agrees doomed P Q)
    (hnext : ∀ a, (next a).Agrees doomed' Q R) (hended : doomed → ∀ a, (next a).FailsAtEnd) :
    Agrees doomed' P R fun c => (rule c).bind next := by
  intro c c' hP
  refine (hrule c c' hP).bind ?_ fun v rest _ hd hrest hnil => ?_
  · rintro v rest v' rest' ⟨rfl, hQ⟩
    exact hnext v rest rest' hQ
  · obtain ⟨place, expected, blamed, hfails⟩ := hended hd v rest hrest hnil
    rw [hfails]
    exact .failed

theorem agrees_map {f : α → β} (hrule : rule.Agrees doomed P Q) :
    (map f rule).Agrees doomed P Q :=
  fun c c' hP => (hrule c c' hP).map fun _ _ _ _ hK => ⟨congrArg f hK.1, hK.2⟩

theorem agrees_both {second : Rule β} (hrule : rule.Agrees False P Q)
    (hsecond : second.Agrees doomed Q R) : (both rule second).Agrees doomed P R :=
  agrees_bind hrule (fun _ => agrees_map hsecond) nofun

theorem agrees_preceded {before : Rule β} (hbefore : before.Agrees False P Q)
    (hrule : rule.Agrees doomed Q R) : (preceded before rule).Agrees doomed P R :=
  agrees_map (agrees_both hbefore hrule)

/-- Of what ends a rule the value does not count. -/
theorem agrees_terminated {after : Rule β} (hrule : rule.Agrees doomed P Q)
    (hafter : after.Leads doomed' Q R) (hended : doomed → after.FailsAtEnd) :
    (terminated rule after).Agrees doomed' P R := by
  intro c c' hP
  unfold terminated map both
  have hboth : Agree doomed' (fun v rest v' rest' => v.1 = v'.1 ∧ R rest rest')
      ((rule c).bind fun a rest => (after rest).map fun b => (a, b))
      ((rule c').bind fun a rest => (after rest).map fun b => (a, b)) := by
    refine (hrule c c' hP).bind ?_ fun v rest _ hd hrest hnil => ?_
    · rintro v rest v' rest' ⟨rfl, hQ⟩
      exact (hafter rest rest' hQ).map fun _ _ _ _ hR => ⟨rfl, hR⟩
    · obtain ⟨place, expected, blamed, hfails⟩ := hended hd rest hrest hnil
      rw [hfails]
      exact .failed
  exact hboth.map fun _ _ _ _ hK => hK

theorem agrees_firstOf {rules : List (Rule α)} (hrule : rule.Agrees doomed P Q)
    (hrules : ∀ r ∈ rules, Agrees doomed P Q r) : (firstOf rule rules).Agrees doomed P Q := by
  induction rules generalizing rule with
  | nil => exact hrule
  | cons next rules ih =>
    have hothers : (firstOf next rules).Agrees doomed P Q :=
      ih (hrules next List.mem_cons_self) fun r hr => hrules r (List.mem_cons_of_mem _ hr)
    exact fun c c' hP => (hrule c c' hP).orElse (hothers c c' hP)

theorem agrees_choice {rules : List (Rule α)} {expected : Option String}
    (hrules : ∀ r ∈ rules, Agrees doomed P Q r) : (choice rules expected).Agrees doomed P Q := by
  cases rules with
  | nil => exact fun _ _ _ => .missed
  | cons rule rules =>
    have hfirst : (firstOf rule rules).Agrees doomed P Q :=
      agrees_firstOf (hrules rule List.mem_cons_self) fun r hr =>
        hrules r (List.mem_cons_of_mem _ hr)
    exact fun c c' hP => (hfirst c c' hP).relabel expected

theorem agree_cut {K : α → Cursor → α → Cursor → Prop} {c c' : Cursor}
    (h : Agree doomed K (rule c) (rule c')) :
    Agree doomed K (cut rule context c) (cut rule context c') := by
  unfold Rule.cut
  generalize rule c = a at h ⊢
  generalize rule c' = b at h ⊢
  cases h with
  | matched h => exact .matched h
  | missed => exact .failed
  | failed => exact .failed
  | ended hd hrest hend => exact .ended hd hrest hend

theorem agrees_cut (hrule : rule.Agrees doomed P Q) : (cut rule context).Agrees doomed P Q :=
  fun c c' hP => agree_cut (hrule c c' hP)

theorem leads_cut (hrule : rule.Leads doomed P Q) : (cut rule context).Leads doomed P Q :=
  fun c c' hP => agree_cut (hrule c c' hP)

theorem agree_opt {c c' : Cursor} (h : Agree doomed (Same Q) (rule c) (rule c')) (hQ : Q c c') :
    Agree doomed (Same Q) (opt rule c) (opt rule c') := by
  unfold opt
  generalize rule c = a at h ⊢
  generalize rule c' = b at h ⊢
  cases h with
  | matched h => exact .matched ⟨congrArg some h.1, h.2⟩
  | missed => exact .matched ⟨rfl, hQ⟩
  | failed => exact .failed
  | ended hd hrest hend => exact .ended hd hrest hend

theorem agrees_opt (hrule : rule.Agrees doomed P Q) (hPQ : ∀ c c', P c c' → Q c c') :
    (opt rule).Agrees doomed P Q :=
  fun c c' hP => agree_opt (hrule c c' hP) (hPQ c c' hP)

/-! ## Rules to which the first run is committed -/

/-- The runs agree unless the first one misses. -/
def Follows (doomed : Prop) (P Q : Cursor → Cursor → Prop) (rule : Rule α) : Prop :=
  ∀ c c' : Cursor, P c c' → MissesAt rule c ∨ Agree doomed (Same Q) (rule c) (rule c')

theorem follows_bind {next : α → Rule β} (hrule : rule.Agrees False P Q)
    (hnext : ∀ a, (next a).Follows doomed Q R) :
    Follows doomed P R fun c => (rule c).bind next := by
  intro c c' hP
  have h := hrule c c' hP
  dsimp only [MissesAt]
  generalize rule c = a at h ⊢
  generalize rule c' = b at h ⊢
  cases h with
  | @matched v _ rest rest' h =>
    obtain ⟨rfl, hQ⟩ := h
    exact hnext v rest rest' hQ
  | missed => exact .inl ⟨_, _, rfl⟩
  | failed => exact .inr .failed
  | ended hd => exact hd.elim

theorem follows_map {f : α → β} (hrule : rule.Follows doomed P Q) :
    (map f rule).Follows doomed P Q :=
  fun c c' hP => (hrule c c' hP).imp map_misses
    fun h => h.map fun _ _ _ _ hK => ⟨congrArg f hK.1, hK.2⟩

theorem follows_both {second : Rule β} (hrule : rule.Agrees False P Q)
    (hsecond : second.Follows doomed Q R) : (both rule second).Follows doomed P R :=
  follows_bind hrule fun _ => follows_map hsecond

/-- Of two rules the runs can only take the same one. -/
theorem follows_choice {second : Rule α} {expected : Option String}
    (hrule : rule.Follows doomed P Q) (hsecond : second.Follows doomed P Q)
    (hapart : ∀ c c', P c c' →
      MissesAt rule c ∧ MissesAt rule c' ∨ MissesAt second c ∧ MissesAt second c') :
    (choice [rule, second] expected).Follows doomed P Q := by
  intro c c' hP
  have hmisses : MissesAt rule c → MissesAt second c →
      MissesAt (choice [rule, second] expected) c :=
    fun hmiss hmiss' => choice_misses (by simp [hmiss, hmiss'])
  have hagrees : Agree doomed (Same Q) (rule c) (rule c') →
      Agree doomed (Same Q) (second c) (second c') →
      Agree doomed (Same Q) (choice [rule, second] expected c)
        (choice [rule, second] expected c') :=
    fun h hs => (h.orElse hs).relabel expected
  rcases hapart c c' hP with ⟨hmiss, _, _, hmiss'⟩ | ⟨hmiss, _, _, hmiss'⟩
  · refine (hsecond c c' hP).imp (hmisses hmiss) (hagrees ?_)
    obtain ⟨_, _, hmiss⟩ := hmiss
    rw [hmiss, hmiss']
    exact .missed
  · refine (hrule c c' hP).imp (hmisses · hmiss) (hagrees · ?_)
    obtain ⟨_, _, hmiss⟩ := hmiss
    rw [hmiss, hmiss']
    exact .missed

/-- A commitment turns a miss of the first run into a failure. -/
theorem agrees_cut_of_follows (hrule : rule.Follows doomed P Q) :
    (cut rule context).Agrees doomed P Q := by
  intro c c' hP
  rcases hrule c c' hP with ⟨place, expected, hmiss⟩ | h
  · rw [cut, hmiss]
    exact .failed
  · exact agree_cut h

/-! ## Repetition -/

/-- At the end of the text a repetition stops with the match that has reached it. -/
theorem many_to_end (hadvances : rule.Advances) (hend : rule.Refuses []) {c rest : Cursor} {v : α}
    (hc : c.Within) (h : rule c = .matched v rest) (hrest : rest.ahead = []) :
    many rule c = .matched [v] rest := by
  have hwithin := (hadvances c v rest hc h).1.within hc
  rw [hadvances.many_of_matched hc h, many_of_misses (hend rest hwithin hrest)]
  rfl

section

variable (hwithin : ∀ c c', P c c' → c.Within ∧ c'.Within)
include hwithin

/-- A match up to the end of the first text ends the repetition there. -/
theorem agrees_many (hrule : rule.Agrees doomed P Q) (hadvances : rule.Advances)
    (hQ : ∀ c c', Q c c' → P c c' ∨ doomed' ∧ c.ahead = [])
    (hdoomed : doomed → doomed') (hend : doomed' → rule.Refuses []) :
    (many rule).Agrees doomed' P P := by
  intro c c' hP
  have hstart := (hwithin c c' hP).1
  induction c, hstart using hadvances.induction generalizing c' with
  | step c hc ih =>
    have hc' := (hwithin c c' hP).2
    have hfirst := hrule c c' hP
    generalize ha : rule c = a at hfirst
    generalize hb : rule c' = b at hfirst
    cases hfirst with
    | missed =>
      rw [many_of_misses ⟨_, _, ha⟩, many_of_misses ⟨_, _, hb⟩]
      exact .matched ⟨rfl, hP⟩
    | failed =>
      rw [many_of_failed ha]
      exact .failed
    | @ended v rest _ hd hrest hnil =>
      rw [many_to_end hadvances (hend (hdoomed hd)) hc ha hnil]
      exact .ended (hdoomed hd) hrest hnil
    | @matched v v' rest rest' h =>
      obtain ⟨rfl, hnext⟩ := h
      have hrest := (hadvances c v rest hc ha).1.within hc
      rcases hQ rest rest' hnext with hP' | ⟨hd, hnil⟩
      · rw [hadvances.many_of_matched hc ha, hadvances.many_of_matched hc' hb]
        exact (ih v rest hrest ha rest' hP').map fun _ _ _ _ hK =>
          ⟨congrArg (v :: ·) hK.1, hK.2⟩
      · rw [many_to_end hadvances (hend hd) hc ha hnil]
        exact .ended hd hrest hnil

theorem agrees_many1 (hrule : rule.Agrees False P P) (hadvances : rule.Advances) :
    (many1 rule).Agrees False P P := by
  refine agrees_bind hrule (fun a => ?_) nofun
  · intro c c' hP
    have hmore : (many rule).Agrees False P P :=
      agrees_many hwithin hrule hadvances (fun _ _ => .inl) id nofun
    exact (hmore c c' hP).map fun _ _ _ _ hK => ⟨congrArg (OneOrMore.mk a) hK.1, hK.2⟩

theorem agrees_separatedUpTo {separator : Rule β} (hrule : rule.Agrees False P P)
    (hproceeds : rule.Proceeds) (hseparator : separator.Leads False P P)
    (hadvances : separator.Advances) {bound bound' : Nat} {c c' : Cursor} (hP : P c c')
    (hbound : c.room ≤ bound) (hbound' : c'.room ≤ bound') :
    Agree False (Same P) (separatedUpTo rule separator context bound c)
      (separatedUpTo rule separator context bound' c') := by
  induction hroom : c.room using Nat.strongRecOn generalizing bound bound' c c' with
  | ind room ih =>
    obtain ⟨hc, hc'⟩ := hwithin c c' hP
    have hmark := hseparator c c' hP
    unfold separatedUpTo
    generalize ha : separator c = a at hmark
    generalize hb : separator c' = b at hmark
    cases hmark with
    | missed => exact .matched ⟨rfl, hP⟩
    | failed => exact .failed
    | ended hd _ _ => exact hd.elim
    | @matched _ _ next next' hnext =>
      obtain ⟨hreach, hpos⟩ := hadvances c _ next hc ha
      obtain ⟨hreach', hpos'⟩ := hadvances c' _ next' hc' hb
      have hless := hreach.room_lt hc (by omega)
      have hless' := hreach'.room_lt hc' (by omega)
      obtain ⟨n, rfl⟩ : ∃ n, bound = n + 1 := ⟨bound - 1, by omega⟩
      obtain ⟨n', rfl⟩ : ∃ n', bound' = n' + 1 := ⟨bound' - 1, by omega⟩
      have hvalue : Agree False (Same P) (cut rule context next) (cut rule context next') :=
        agrees_cut hrule next next' hnext
      dsimp only
      generalize hv : cut rule context next = a at hvalue
      generalize hv' : cut rule context next' = b at hvalue
      cases hvalue with
      | missed => exact .missed
      | failed => exact .failed
      | ended hd _ _ => exact hd.elim
      | @matched v _ rest rest' h =>
        obtain ⟨rfl, hrest⟩ := h
        have hle := (hproceeds next v rest (hreach.within hc) (cut_matched.mp hv)).1.room_le
          (hreach.within hc)
        have hle' := (hproceeds next' v rest' (hreach'.within hc') (cut_matched.mp hv')).1.room_le
          (hreach'.within hc')
        have hmore : Agree False (Same P) (separatedUpTo rule separator context n rest)
            (separatedUpTo rule separator context n' rest') :=
          ih rest.room (by omega) hrest (by omega) (by omega) rfl
        exact hmore.map fun _ _ _ _ hK => ⟨congrArg (v :: ·) hK.1, hK.2⟩

theorem agrees_separated1 {separator : Rule β} (hrule : rule.Agrees False P P)
    (hproceeds : rule.Proceeds) (hseparator : separator.Leads False P P)
    (hadvances : separator.Advances) : (separated1 rule separator context).Agrees False P P := by
  refine agrees_bind hrule (fun a => ?_) nofun
  intro c c' hP
  have hmore : Agree False (Same P) (separatedUpTo rule separator context c.room c)
      (separatedUpTo rule separator context c'.room c') :=
    agrees_separatedUpTo hwithin hrule hproceeds hseparator hadvances hP (Nat.le_refl _)
      (Nat.le_refl _)
  exact hmore.map fun _ _ _ _ hK => ⟨congrArg (OneOrMore.mk a) hK.1, hK.2⟩

end

end Rule

end LessSyntax
