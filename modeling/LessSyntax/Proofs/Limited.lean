import LessSyntax.Grammar.Value
import LessSyntax.Proofs.TriviaRun

/-!
# Reading under two limits

The same text is read under two limits on the nesting, the first of them the smaller one. The two
runs agree until the first of them would open one block or call too many. That is a failure, and
nothing tries to repair it; and the other run does not miss there, so that it goes on to a value
that is nested deeper than the first limit allows, or fails too.

* `Limited`: how the outcomes of the two runs are related.
* `Rule.Limits`: the same for rules. There is one lemma for each way to combine rules:
  `limits_bind`, `limits_both`, `limits_choice`, `limits_cut`, `limits_opt`, `limits_many`,
  `limits_separated1`.
-/

namespace LessSyntax.Grammar

open Rule

variable {α β : Type} {s : Settings} {nest : α → Nat} {nest' : β → Nat} {levels : Nat}
  {c mid : Cursor} {a b : Outcome α}

/-! ## Outcomes -/

/-- The failure says that one block or one call too many opens where it stands. -/
inductive AtLimit (s : Settings) (text : List Char) : Cursor → String → String → Prop
  | block {place : Cursor} {k : List Char} (htext : place.text = text) (hpos : 0 ≤ place.pos)
    (hahead : place.ahead = '{' :: k) : AtLimit s text place (depthLabel s "blocks") "block"
  | call {place : Cursor} {k : List Char} (htext : place.text = text) (hpos : 0 ≤ place.pos)
    (hahead : place.ahead = '(' :: k) : AtLimit s text place (depthLabel s "calls") "function"

/-- The outcome is a value that is nested deeper than the levels, or a failure. -/
inductive ReadsDeeper (nest : α → Nat) (levels : Nat) (c : Cursor) : Outcome α → Prop
  | matched {v : α} {rest : Cursor} (hreach : c.Reaches rest) (hpos : c.pos < rest.pos)
    (hnest : levels < nest v) : ReadsDeeper nest levels c (.matched v rest)
  | failed {place : Cursor} {expected rule : String} :
    ReadsDeeper nest levels c (.failed place expected rule)

/-- The outcomes of two runs from the same cursor. They are the same, and a value is nested no
deeper than the levels of the first run; or the first run fails at its limit, and the second one
reads what is nested deeper, or fails. -/
inductive Limited (s : Settings) (nest : α → Nat) (levels : Nat) (c : Cursor) :
    Outcome α → Outcome α → Prop
  | matched {v : α} {rest : Cursor} (hreach : c.Reaches rest) (hnest : nest v ≤ levels) :
    Limited s nest levels c (.matched v rest) (.matched v rest)
  | missed {place : Cursor} {expected : String} :
    Limited s nest levels c (.missed place expected) (.missed place expected)
  | failed {place : Cursor} {expected rule : String} :
    Limited s nest levels c (.failed place expected rule) (.failed place expected rule)
  | atLimit {place : Cursor} {expected rule : String} {b : Outcome α}
    (hlimit : AtLimit s c.text place expected rule) (hdeeper : ReadsDeeper nest levels c b) :
    Limited s nest levels c (.failed place expected rule) b

/-- What holds further on holds from here. -/
theorem Limited.from (hreach : c.Reaches mid) (h : Limited s nest levels mid a b) :
    Limited s nest levels c a b := by
  cases h with
  | matched hreach' hnest => exact .matched (hreach.trans hreach') hnest
  | missed => exact .missed
  | failed => exact .failed
  | atLimit hlimit hdeeper =>
    refine .atLimit (hreach.text ▸ hlimit) ?_
    have hle := hreach.pos_le
    cases hdeeper with
    | matched hreach' hpos hnest => exact .matched (hreach.trans hreach') (by omega) hnest
    | failed => exact .failed

/-- Behind the limit the second run must go on to something deeper and must not miss: the first
run cannot try something else there. -/
theorem Limited.bind {next next' : α → Rule β} (h : Limited s nest levels c a b)
    (hnext : ∀ v mid, c.Reaches mid → nest v ≤ levels →
      Limited s nest' levels mid (next v mid) (next' v mid))
    (hafter : ∀ v mid, c.Reaches mid → c.pos < mid.pos → levels < nest v →
      ReadsDeeper nest' levels c (next' v mid)) :
    Limited s nest' levels c (a.bind next) (b.bind next') := by
  cases h with
  | matched hreach hnest => exact (hnext _ _ hreach hnest).from hreach
  | missed => exact .missed
  | failed => exact .failed
  | atLimit hlimit hdeeper =>
    refine .atLimit hlimit ?_
    cases hdeeper with
    | matched hreach hpos hnest => exact hafter _ _ hreach hpos hnest
    | failed => exact .failed

theorem Limited.map {f : α → β} (h : Limited s nest levels c a b)
    (hwithin : ∀ v, nest v ≤ levels → nest' (f v) ≤ levels)
    (hdeeper : ∀ v, levels < nest v → levels < nest' (f v)) :
    Limited s nest' levels c (a.map f) (b.map f) :=
  h.bind (fun v mid _ hnest => .matched (.refl mid) (hwithin v hnest))
    fun v _ hreach hpos hnest => .matched hreach hpos (hdeeper v hnest)

/-- The value is added to something that is nested within the levels. -/
theorem Limited.map_max {f : α → β} {n : Nat} (h : Limited s nest levels c a b)
    (hf : ∀ v, nest' (f v) = max n (nest v)) (hn : n ≤ levels) :
    Limited s nest' levels c (a.map f) (b.map f) := by
  refine h.map (fun v hv => ?_) fun v hv => ?_
  · rw [hf]
    exact Nat.max_le.mpr ⟨hn, hv⟩
  · rw [hf]
    exact Nat.lt_of_lt_of_le hv (Nat.le_max_right _ _)

/-- Either the outcomes are the same, and a value is nested within the levels, or the first run
fails at its limit, and a value of the second one is nested deeper. -/
theorem Limited.same_or_atLimit (h : Limited s nest levels c a b) :
    (a = b ∧ ∀ v rest, b = .matched v rest → nest v ≤ levels) ∨
      ∃ place expected rule, a = .failed place expected rule ∧
        AtLimit s c.text place expected rule ∧ ∀ v rest, b = .matched v rest → levels < nest v := by
  cases h with
  | matched _ hnest =>
    refine .inl ⟨rfl, fun w stop hw => ?_⟩
    cases hw
    exact hnest
  | missed => exact .inl ⟨rfl, fun _ _ hw => nomatch hw⟩
  | failed => exact .inl ⟨rfl, fun _ _ hw => nomatch hw⟩
  | atLimit hlimit hdeeper =>
    refine .inr ⟨_, _, _, rfl, hlimit, fun w stop hw => ?_⟩
    cases hdeeper with
    | matched _ _ hnest =>
      cases hw
      exact hnest
    | failed => cases hw

/-- Matches and failures stay what they are; a miss may be treated in another way. -/
structure Keeps (F : Outcome α → Outcome β) (f : α → β) : Prop where
  matched (v : α) (rest : Cursor) : F (.matched v rest) = .matched (f v) rest
  failed (place : Cursor) (expected rule : String) :
    F (.failed place expected rule) = .failed place expected rule

theorem Limited.transform {F G : Outcome α → Outcome β} {f : α → β}
    (h : Limited s nest levels c a b) (hnest : ∀ v, nest' (f v) = nest v) (hF : Keeps F f)
    (hG : Keeps G f)
    (hmissed : ∀ place expected,
      Limited s nest' levels c (F (.missed place expected)) (G (.missed place expected))) :
    Limited s nest' levels c (F a) (G b) := by
  cases h with
  | matched hreach hle =>
    rw [hF.matched, hG.matched]
    exact .matched hreach (by rwa [hnest])
  | missed => exact hmissed _ _
  | failed =>
    rw [hF.failed, hG.failed]
    exact .failed
  | atLimit hlimit hdeeper =>
    rw [hF.failed]
    refine .atLimit hlimit ?_
    cases hdeeper with
    | matched hreach hpos hlt =>
      rw [hG.matched]
      exact .matched hreach hpos (by rwa [hnest])
    | failed =>
      rw [hG.failed]
      exact .failed

end LessSyntax.Grammar

namespace LessSyntax.Rule

open Grammar

variable {α β γ : Type} {s : Settings} {nest : α → Nat} {nest' : β → Nat} {levels : Nat}
  {small large : Rule α} {context : String}

/-! ## Rules -/

/-- The rules agree up to the limit of the first one. -/
def Limits (s : Settings) (nest : α → Nat) (levels : Nat) (small large : Rule α) : Prop :=
  ∀ c : Cursor, c.Within → Limited s nest levels c (small c) (large c)

/-- The rule matches or fails. -/
def NeverMisses (rule : Rule α) : Prop := ∀ c : Cursor, ¬ MissesAt rule c

/-- A rule that opens nothing does not see the limit. -/
theorem limits_free {rule : Rule α} (h : rule.Ensures fun _ v _ => nest v = 0) :
    Limits s nest levels rule rule := by
  intro c hc
  cases hrule : rule c with
  | matched v rest =>
    obtain ⟨hreach, hnest⟩ := h c v rest hc hrule
    exact .matched hreach (by omega)
  | missed place expected => exact .missed
  | failed place expected blamed => exact .failed

/-- What is read under the smaller limit is read under the other one. -/
theorem Limits.of_matched (h : Limits s nest levels small large) {c rest : Cursor} {v : α}
    (hc : c.Within) (hread : small c = .matched v rest) : large c = .matched v rest := by
  have hlimited := h c hc
  rw [hread] at hlimited
  generalize large c = b at hlimited ⊢
  cases hlimited
  rfl

theorem Limits.ensures (h : Limits s nest levels small large) :
    large.Ensures fun _ _ _ => True := by
  intro c v rest hc hlarge
  have hlimited := h c hc
  rw [hlarge] at hlimited
  generalize small c = a at hlimited
  cases hlimited with
  | matched hreach _ => exact ⟨hreach, trivial⟩
  | atLimit _ hdeeper =>
    cases hdeeper with
    | matched hreach _ _ => exact ⟨hreach, trivial⟩

/-- A rule that does not miss reads something deeper from wherever what is nested deeper led. -/
theorem readsDeeper_of_neverMisses {rule : Rule β} {c mid : Cursor} (hnever : NeverMisses rule)
    (hensures : rule.Ensures fun _ w _ => levels < nest' w) (hc : c.Within)
    (hreach : c.Reaches mid) (hpos : c.pos < mid.pos) :
    ReadsDeeper nest' levels c (rule mid) := by
  cases h : rule mid with
  | missed place expected => exact absurd ⟨place, expected, h⟩ (hnever mid)
  | failed place expected blamed => exact .failed
  | matched w rest =>
    obtain ⟨hreach', hnest⟩ := hensures mid w rest (hreach.within hc) h
    have hle := hreach'.pos_le
    exact .matched (hreach.trans hreach') (by omega) hnest

theorem ensures_map_max {f : α → β} {n : Nat} {rule : Rule α}
    (hf : ∀ v, nest' (f v) = max n (nest v)) (hn : levels < n)
    (hrule : rule.Ensures fun _ _ _ => True) :
    (map f rule).Ensures fun _ v _ => levels < nest' v := by
  refine ensures_map (ensures_mono hrule fun _ v _ _ _ _ => ?_)
  rw [hf]
  exact Nat.lt_of_lt_of_le hn (Nat.le_max_left _ _)

/-! ## One level deeper -/

/-- What is read in a block or a call counts one level more around it. -/
theorem limited_of_nested {f : α → β} {c mid : Cursor} {a b : Outcome α} (hreach : c.Reaches mid)
    (h : Limited s nest levels mid.nested a b) (hf : ∀ v, nest' (f v) = nest v + 1) :
    Limited s nest' (levels + 1) c (a.bind fun v stop => .matched (f v) (stop.withDepth c.depth))
      (b.bind fun v stop => .matched (f v) (stop.withDepth c.depth)) := by
  have hinside : ∀ {stop : Cursor}, mid.nested.Reaches stop →
      c.Reaches (stop.withDepth c.depth) := by
    intro stop hreach'
    have hstop := hreach'.of_nested
    rw [hreach.depth] at hstop
    exact hreach.trans hstop
  cases h with
  | @matched v stop hreach' hnest =>
    refine .matched (hinside hreach') ?_
    rw [hf]
    omega
  | missed => exact .missed
  | failed => exact .failed
  | atLimit hlimit hdeeper =>
    have htext : mid.nested.text = c.text := hreach.text
    refine .atLimit (htext ▸ hlimit) ?_
    cases hdeeper with
    | failed => exact .failed
    | @matched v stop hreach' hpos hnest =>
      have hle := hreach.pos_le
      have hpos' : mid.pos < stop.pos := hpos
      refine .matched (hinside hreach') (Int.lt_of_le_of_lt hle hpos') ?_
      rw [hf]
      omega

/-- What opens a block or a call is deeper than no level at all. -/
theorem readsDeeper_of_nested {f : α → β} {rule : Rule α} {c mid : Cursor} (hc : c.Within)
    (hnever : NeverMisses rule) (hensures : rule.Ensures fun _ _ _ => True)
    (hreach : c.Reaches mid) (hpos : c.pos < mid.pos) (hf : ∀ v, 0 < nest' (f v)) :
    ReadsDeeper nest' 0 c
      ((rule mid.nested).bind fun v stop => .matched (f v) (stop.withDepth c.depth)) := by
  cases h : rule mid.nested with
  | missed place expected => exact absurd ⟨place, expected, h⟩ (hnever mid.nested)
  | failed place expected blamed => exact .failed
  | matched v stop =>
    have hstop := (hensures _ v stop (hreach.within hc).nested h).1.of_nested
    have hle := hstop.pos_le
    rw [hreach.depth] at hstop
    exact .matched (hreach.trans hstop) (Int.lt_of_lt_of_le hpos hle) (hf v)

/-! ## Sequence -/

theorem limits_bind {next next' : α → Rule β} (hrule : Limits s nest levels small large)
    (hnext : ∀ a, nest a ≤ levels → Limits s nest' levels (next a) (next' a))
    (hensures : ∀ a, levels < nest a → (next' a).Ensures fun _ v _ => levels < nest' v)
    (hnever : ∀ a, NeverMisses (next' a)) :
    Limits s nest' levels (fun c => (small c).bind next) (fun c => (large c).bind next') :=
  fun c hc => (hrule c hc).bind (fun a mid hreach ha => hnext a ha mid (hreach.within hc))
    fun a _ hreach hpos ha =>
      readsDeeper_of_neverMisses (hnever a) (hensures a ha) hc hreach hpos

/-- Behind a rule that opens nothing, nothing is asked of the second one. -/
theorem limits_bind_free {rule : Rule α} {next next' : α → Rule β}
    (hrule : rule.Ensures fun _ _ _ => True)
    (hnext : ∀ a, Limits s nest' levels (next a) (next' a)) :
    Limits s nest' levels (fun c => (rule c).bind next) (fun c => (rule c).bind next') := by
  intro c hc
  have hfree : Limited s (fun _ => 0) levels c (rule c) (rule c) :=
    limits_free (ensures_mono hrule fun _ _ _ _ _ _ => rfl) c hc
  refine hfree.bind (fun a mid hreach _ => hnext a mid (hreach.within hc)) fun a mid _ _ h => ?_
  exact absurd h (Nat.not_lt_zero levels)

theorem limits_map {f : α → β} (hrule : Limits s (fun a => nest' (f a)) levels small large) :
    Limits s nest' levels (map f small) (map f large) :=
  fun c hc => (hrule c hc).map (fun _ h => h) fun _ h => h

/-- What is made of something that is nested within the levels. -/
theorem limits_map_within {f : α → β} {rule : Rule α} (hf : ∀ v, nest' (f v) ≤ levels)
    (hrule : rule.Ensures fun _ _ _ => True) :
    Limits s nest' levels (map f rule) (map f rule) := by
  intro c hc
  have hfree : Limited s (fun _ => 0) levels c (rule c) (rule c) :=
    limits_free (ensures_mono hrule fun _ _ _ _ _ _ => rfl) c hc
  exact hfree.map (fun v _ => hf v) fun v hv => absurd hv (Nat.not_lt_zero levels)

theorem neverMisses_map {f : α → β} {rule : Rule α} (h : NeverMisses rule) :
    NeverMisses (map f rule) := by
  rintro c ⟨place, expected, hmiss⟩
  cases hrule : rule c with
  | matched v rest => simp [map, hrule] at hmiss
  | missed place' expected' => exact h c ⟨place', expected', hrule⟩
  | failed place' expected' blamed => simp [map, hrule] at hmiss

theorem limits_both {second second' : Rule β} (hrule : Limits s nest levels small large)
    (hsecond : Limits s nest' levels second second') (hnever : NeverMisses second') :
    Limits s (fun v => max (nest v.1) (nest' v.2)) levels (both small second)
      (both large second') :=
  limits_bind hrule (fun _ ha c hc => (hsecond c hc).map_max (fun _ => rfl) ha)
    (fun _ ha => ensures_map_max (fun _ => rfl) ha hsecond.ensures)
    fun _ => neverMisses_map hnever

theorem limits_both_free {rule : Rule α} {second second' : Rule β}
    (hrule : rule.Ensures fun _ _ _ => True) (hsecond : Limits s nest' levels second second') :
    Limits s (fun v => nest' v.2) levels (both rule second) (both rule second') :=
  limits_bind_free hrule fun _ => limits_map hsecond

/-! ## Commitment -/

theorem neverMisses_cut (rule : Rule α) (context : String) : NeverMisses (cut rule context) := by
  rintro c ⟨place, expected, h⟩
  unfold cut at h
  split at h
  · cases h
  · rename_i hother
    exact hother place expected h

/-- A miss where the rule is committed to. -/
def committed (context : String) : Outcome α → Outcome α
  | .missed place expected => .failed place expected context
  | outcome => outcome

theorem keeps_committed : @Keeps α α (committed context) id := ⟨fun _ _ => rfl, fun _ _ _ => rfl⟩

theorem cut_eq (rule : Rule α) (c : Cursor) : cut rule context c = committed context (rule c) := by
  unfold cut
  cases rule c <;> rfl

theorem limits_cut (hrule : Limits s nest levels small large) :
    Limits s nest levels (cut small context) (cut large context) := by
  intro c hc
  rw [cut_eq, cut_eq]
  exact (hrule c hc).transform (fun _ => rfl) keeps_committed keeps_committed fun _ _ => .failed

/-- To commit to two rules is to commit to each of them. -/
theorem cut_both {first : Rule α} {second : Rule β} :
    cut (both first second) context = both (cut first context) (cut second context) := by
  ext c
  cases hfirst : first c with
  | missed place expected => simp [cut, both, hfirst]
  | failed place expected blamed => simp [cut, both, hfirst]
  | matched a rest =>
    cases hsecond : second rest <;>
      simp [cut, both, hfirst, hsecond]

theorem cut_map {f : α → β} {rule : Rule α} :
    cut (map f rule) context = map f (cut rule context) := by
  ext c
  cases hrule : rule c <;> simp [cut, map, hrule]

theorem limits_cut_free {rule : Rule α} (hrule : rule.Ensures fun _ _ _ => True) :
    Limits s (fun _ => 0) levels (cut rule context) (cut rule context) :=
  limits_cut (limits_free (ensures_mono hrule fun _ _ _ _ _ _ => rfl))

/-- A rule that opens nothing may end what is committed to. -/
theorem limits_cut_terminated {after : Rule β} (hrule : Limits s nest levels small large)
    (hafter : after.Ensures fun _ _ _ => True) :
    Limits s nest levels (cut (terminated small after) context)
      (cut (terminated large after) context) := by
  unfold terminated
  rw [cut_map, cut_map, cut_both, cut_both]
  have hlarge : Limits s (fun _ => 0) levels (cut after context) (cut after context) :=
    limits_cut_free hafter
  have hboth : Limits s (fun v => max (nest v.1) 0) levels
      (both (cut small context) (cut after context))
      (both (cut large context) (cut after context)) :=
    limits_both (limits_cut hrule) hlarge (neverMisses_cut _ _)
  simp only [Nat.max_zero] at hboth
  exact limits_map hboth

/-! ## Choice -/

theorem keeps_orElse (second : Unit → Outcome α) : Keeps (·.orElse second) id :=
  ⟨fun _ _ => rfl, fun _ _ _ => rfl⟩

theorem keeps_orElse_missed (place : Cursor) (expected : String) :
    @Keeps α α (fun outcome => (Outcome.missed place expected).orElse fun _ => outcome) id :=
  ⟨fun _ _ => rfl, fun _ _ _ => rfl⟩

theorem keeps_relabel (expected : Option String) : @Keeps α α (Outcome.relabel expected) id :=
  ⟨fun _ _ => rfl, fun _ _ _ => rfl⟩

theorem limited_orElse {c : Cursor} {a b : Outcome α} {x y : Unit → Outcome α}
    (hfirst : Limited s nest levels c a b) (hsecond : Limited s nest levels c (x ()) (y ())) :
    Limited s nest levels c (a.orElse x) (b.orElse y) := by
  refine hfirst.transform (fun _ => rfl) (keeps_orElse x) (keeps_orElse y) fun place expected => ?_
  refine hsecond.transform (fun _ => rfl) (keeps_orElse_missed place expected)
    (keeps_orElse_missed place expected) fun place' expected' => ?_
  dsimp only [Outcome.orElse]
  split <;> exact .missed

theorem limits_firstOf {next next' : Rule α} {rules rules' : List (Rule α)}
    (hfirst : Limits s nest levels small large)
    (hothers : Limits s nest levels (firstOf next rules) (firstOf next' rules')) :
    Limits s nest levels (firstOf small (next :: rules)) (firstOf large (next' :: rules')) :=
  fun c hc => limited_orElse (hfirst c hc) (hothers c hc)

theorem limits_choice {rules rules' : List (Rule α)} {expected : Option String}
    (h : Limits s nest levels (firstOf small rules) (firstOf large rules')) :
    Limits s nest levels (choice (small :: rules) expected)
      (choice (large :: rules') expected) := by
  intro c hc
  refine (h c hc).transform (fun _ => rfl) (keeps_relabel expected) (keeps_relabel expected) ?_
  intro place found
  cases expected <;> exact .missed

/-- A miss of an optional rule gives no value and reads nothing. -/
def optional (c : Cursor) : Outcome α → Outcome (Option α)
  | .matched value rest => .matched (some value) rest
  | .missed _ _ => .matched none c
  | .failed place expected blamed => .failed place expected blamed

theorem keeps_optional (c : Cursor) : @Keeps α (Option α) (optional c) some :=
  ⟨fun _ _ => rfl, fun _ _ _ => rfl⟩

theorem opt_eq (rule : Rule α) (c : Cursor) : opt rule c = optional c (rule c) := by
  unfold opt
  cases rule c <;> rfl

theorem limits_opt {nestOpt : Option α → Nat}
    (hrule : Limits s (fun a => nestOpt (some a)) levels small large) (hnone : nestOpt none = 0) :
    Limits s nestOpt levels (opt small) (opt large) := by
  intro c hc
  have hmissed : Limited s nestOpt levels c (.matched none c) (.matched none c) :=
    .matched (.refl c) (by omega)
  rw [opt_eq, opt_eq]
  exact (hrule c hc).transform (fun _ => rfl) (keeps_optional c) (keeps_optional c)
    fun _ _ => hmissed

/-! ## Repetition -/

theorem neverMisses_manyUpTo (rule : Rule α) (bound : Nat) : NeverMisses (manyUpTo rule bound) := by
  induction bound with
  | zero =>
    rintro c ⟨place, expected, h⟩
    unfold manyUpTo at h
    split at h
    · cases h
    · cases h
    · dsimp only at h
      split at h <;> cases h
  | succ bound ih =>
    rintro c ⟨place, expected, h⟩
    unfold manyUpTo at h
    split at h
    · cases h
    · cases h
    · split at h
      · cases h
      · exact neverMisses_map ih _ ⟨place, expected, h⟩

theorem neverMisses_separatedUpTo (rule : Rule α) (separator : Rule β) (context : String)
    (bound : Nat) : NeverMisses (separatedUpTo rule separator context bound) := by
  induction bound with
  | zero =>
    rintro c ⟨place, expected, h⟩
    unfold separatedUpTo at h
    split at h
    · cases h
    · cases h
    · rename_i next _
      cases hrule : cut rule context next with
      | missed place' expected' => exact neverMisses_cut rule context next ⟨_, _, hrule⟩
      | failed place' expected' blamed => rw [hrule] at h; cases h
      | matched v rest => rw [hrule] at h; cases h
  | succ bound ih =>
    rintro c ⟨place, expected, h⟩
    unfold separatedUpTo at h
    split at h
    · cases h
    · cases h
    · rename_i next _
      cases hrule : cut rule context next with
      | missed place' expected' => exact neverMisses_cut rule context next ⟨_, _, hrule⟩
      | failed place' expected' blamed => rw [hrule] at h; cases h
      | matched v rest =>
        rw [hrule] at h
        exact neverMisses_map ih rest ⟨place, expected, h⟩

section

variable {nestAll : List α → Nat} (hnil : nestAll [] = 0)
  (hcons : ∀ a as, nestAll (a :: as) = max (nest a) (nestAll as))
include hnil hcons

theorem limits_manyUpTo (hrule : Limits s nest levels small large) (bound : Nat) (c : Cursor)
    (hc : c.Within) (hbound : c.room ≤ bound) :
    Limited s nestAll levels c (manyUpTo small bound c) (manyUpTo large bound c) := by
  have hensures : ∀ bound, (manyUpTo large bound).Ensures fun _ _ _ => True :=
    ensures_manyUpTo hrule.ensures (fun _ => trivial) fun _ _ _ _ _ _ _ _ _ => trivial
  have hlimited := hrule c hc
  induction bound generalizing c with
  | zero =>
    unfold manyUpTo
    generalize small c = a at hlimited ⊢
    generalize large c = b at hlimited ⊢
    cases hlimited with
    | missed => exact .matched (.refl c) (by omega)
    | failed => exact .failed
    | matched hreach hnest =>
      dsimp only
      split <;> exact .matched (.refl c) (by omega)
    | atLimit hlimit hdeeper =>
      refine .atLimit hlimit ?_
      cases hdeeper with
      | failed => exact .failed
      | matched hreach hpos _ =>
        -- no room is left, so that nothing was read
        have hroom := hreach.room_lt hc (by omega)
        omega
  | succ bound ih =>
    unfold manyUpTo
    generalize small c = a at hlimited ⊢
    generalize large c = b at hlimited ⊢
    cases hlimited with
    | missed => exact .matched (.refl c) (by omega)
    | failed => exact .failed
    | @matched v rest hreach hnest =>
      dsimp only
      split
      · exact .matched (.refl c) (by omega)
      · rename_i hpos
        have hrest := hreach.within hc
        have hroom := hreach.room_lt hc hpos
        have hmore := ih rest hrest (by omega) (hrule rest hrest)
        exact (hmore.map_max (fun as => hcons v as) hnest).from hreach
    | atLimit hlimit hdeeper =>
      refine .atLimit hlimit ?_
      cases hdeeper with
      | failed => exact .failed
      | @matched v rest hreach hpos hnest =>
        have hne : rest.pos ≠ c.pos := by omega
        dsimp only
        rw [if_neg hne]
        exact readsDeeper_of_neverMisses (neverMisses_map (neverMisses_manyUpTo large bound))
          (ensures_map_max (fun as => hcons v as) hnest (hensures bound)) hc hreach hpos

theorem limits_many (hrule : Limits s nest levels small large) :
    Limits s nestAll levels (many small) (many large) :=
  fun c hc => limits_manyUpTo hnil hcons hrule c.room c hc (Nat.le_refl _)

theorem limits_many1 (hrule : Limits s nest levels small large) :
    Limits s (fun as => nestAll as.toList) levels (many1 small) (many1 large) :=
  have hmore := limits_many hnil hcons hrule
  limits_bind hrule (fun a ha c hc => (hmore c hc).map_max (fun as => hcons a as) ha)
    (fun a ha => ensures_map_max (fun as => hcons a as) ha hmore.ensures)
    fun _ => neverMisses_map fun c => neverMisses_manyUpTo large c.room c

theorem limits_separatedUpTo {separator : Rule γ} (hrule : Limits s nest levels small large)
    (hseparator : separator.Ensures fun c _ rest => c.pos < rest.pos) (bound : Nat) (c : Cursor)
    (hc : c.Within) (hbound : c.room ≤ bound) :
    Limited s nestAll levels c (separatedUpTo small separator context bound c)
      (separatedUpTo large separator context bound c) := by
  have hensures : ∀ bound,
      (separatedUpTo large separator context bound).Ensures fun _ _ _ => True :=
    ensures_separatedUpTo hrule.ensures hseparator (fun _ => trivial)
      fun _ _ _ _ _ _ _ _ _ _ _ _ _ => trivial
  induction bound generalizing c with
  | zero =>
    unfold separatedUpTo
    cases hmark : separator c with
    | missed place expected => exact .matched (.refl c) (by omega)
    | failed place expected blamed => exact .failed
    | matched mark next =>
      -- no room is left, so that no separator was read
      obtain ⟨hreach, hpos⟩ := hseparator c mark next hc hmark
      have hroom := hreach.room_lt hc (by omega)
      omega
  | succ bound ih =>
    unfold separatedUpTo
    cases hmark : separator c with
    | missed place expected => exact .matched (.refl c) (by omega)
    | failed place expected blamed => exact .failed
    | matched mark next =>
      obtain ⟨hreach, hpos⟩ := hseparator c mark next hc hmark
      have hnext := hreach.within hc
      have hroom := hreach.room_lt hc (by omega)
      refine Limited.from hreach (((limits_cut hrule) next hnext).bind ?_ ?_)
      · intro v rest hreach' hv
        have hle := hreach'.room_le hnext
        exact (ih rest (hreach'.within hnext) (by omega)).map_max (fun as => hcons v as) hv
      · intro v rest hreach' hpos' hv
        exact readsDeeper_of_neverMisses
          (neverMisses_map (neverMisses_separatedUpTo large separator context bound))
          (ensures_map_max (fun as => hcons v as) hv (hensures bound)) hnext hreach' hpos'

theorem limits_separated1 {separator : Rule γ} (hrule : Limits s nest levels small large)
    (hseparator : separator.Ensures fun c _ rest => c.pos < rest.pos) :
    Limits s (fun as => nestAll as.toList) levels (separated1 small separator context)
      (separated1 large separator context) := by
  have hmore : Limits s nestAll levels
      (fun c => separatedUpTo small separator context c.room c)
      (fun c => separatedUpTo large separator context c.room c) :=
    fun c hc => limits_separatedUpTo hnil hcons hrule hseparator c.room c hc (Nat.le_refl _)
  exact limits_bind hrule (fun a ha c hc => (hmore c hc).map_max (fun as => hcons a as) ha)
    (fun a ha => ensures_map_max (fun as => hcons a as) ha hmore.ensures)
    fun _ => neverMisses_map fun c => neverMisses_separatedUpTo large separator context c.room c

end

end LessSyntax.Rule
