import LessSyntax.Proofs.RunEnds

/-!
# The longest run of trivia

Skipping trivia reads a run of blanks and comments behind which neither a blank nor a comment
begins, and there is one such run only. It fails where a block comment behind a run has no end, and
names the opening of that comment. So nothing is left to skip behind trivia that has been skipped.

* `trivia_matched_iff`, `trivia_failed_iff`: where skipping trivia stops, and where it fails.
* `trivia_again`: it stops where it would stop again, also at places that count from the end.
* `skips_longest_run`: all of this, and what it means for rules with trivia before them.
-/

namespace LessSyntax.Rule

variable {α : Type} {rule : Rule α} {c place : Cursor} {expected blamed : String}

theorem failed_of_firstOf {rules : List (Rule α)}
    (h : firstOf rule rules c = .failed place expected blamed) :
    ∃ r ∈ rule :: rules, r c = .failed place expected blamed := by
  induction rules generalizing rule with
  | nil => exact ⟨rule, List.mem_cons_self, h⟩
  | cons next rules ih =>
    unfold firstOf Outcome.orElse at h
    split at h
    · split at h
      · split at h <;> cases h
      · obtain ⟨r, hr, hfailed⟩ := ih h
        exact ⟨r, List.mem_cons_of_mem rule hr, hfailed⟩
    · exact ⟨rule, List.mem_cons_self, h⟩

/-- A choice fails only as one of its rules does. -/
theorem failed_of_choice {rules : List (Rule α)} {label : Option String}
    (h : choice rules label c = .failed place expected blamed) :
    ∃ r ∈ rules, r c = .failed place expected blamed := by
  cases rules with
  | nil => cases h
  | cons rule rules =>
    unfold choice Outcome.relabel at h
    dsimp only at h
    split at h
    · cases h
    · exact failed_of_firstOf h

end LessSyntax.Rule

namespace LessSyntax.Grammar

open Rule

variable {α : Type} {s : Settings} {c rest place : Cursor} {expected blamed : String}

/-! ## Comments without an end -/

theorem commentEnd?_eq_none_iff (pos : Nat) {cs : List Char} :
    commentEnd? pos cs = none ↔ ¬ ['*', '/'] <:+: cs := by
  induction cs generalizing pos with
  | nil => simp [commentEnd?]
  | cons x cs ih =>
    rw [commentEnd?, List.infix_cons_iff, not_or, ← List.isPrefixOf_iff_prefix]
    split
    · rename_i hclose
      exact ⟨fun h => (by cases h), fun h => absurd hclose h.1⟩
    · rename_i hopen
      exact (ih (pos + 1)).trans ⟨fun h => ⟨hopen, h⟩, And.right⟩

/-- A block comment opens at the start of the text and nothing closes it. -/
def Unclosed (k : List Char) : Prop := ∃ inner, k = '/' :: '*' :: inner ∧ ¬ ['*', '/'] <:+: inner

theorem blockComment_failed_iff (hc : c.Within) :
    blockComment c = .failed place expected blamed ↔
      place = c ∧ expected = quoted ['*', '/'] ∧ blamed = "comment" ∧ Unclosed c.ahead := by
  by_cases hopen : ['/', '*'] <+: c.ahead
  · obtain ⟨inner, hinner⟩ := hopen
    have hahead : c.ahead = ['/', '*'] ++ inner := hinner.symm
    have hinside : ((c.advance 2).counted).ahead = inner := by
      have hpos : 0 ≤ (c.advance 2).pos := ((hc.reads hahead).within hc).1
      rw [Cursor.counted_eq hpos]
      exact hc.ahead_advance hahead
    have hunclosed : Unclosed c.ahead ↔ ¬ ['*', '/'] <:+: inner := by
      unfold Unclosed
      simp [hahead]
    unfold blockComment
    rw [if_pos ((Cursor.startsWith_iff (by simp)).mpr ⟨inner, hahead⟩), hunclosed,
      ← commentEnd?_eq_none_iff 0]
    dsimp only
    rw [hinside]
    cases commentEnd? 0 inner with
    | none =>
      refine ⟨fun h => ?_, fun ⟨hplace, hexpected, hblamed, _⟩ => ?_⟩
      · cases h
        exact ⟨rfl, rfl, rfl, rfl⟩
      · rw [hplace, hexpected, hblamed]
    | some count => simp
  · obtain ⟨place', expected', hmiss⟩ := blockComment_misses hopen
    rw [hmiss]
    refine ⟨fun h => ?_, fun ⟨_, _, _, inner, hinner, _⟩ => absurd ⟨inner, hinner.symm⟩ hopen⟩
    cases h

/-- Of the pieces of trivia only a block comment fails. -/
theorem triviaUnit_failed_iff (hc : c.Within) :
    triviaUnit s c = .failed place expected blamed ↔
      place = c ∧ expected = quoted ['*', '/'] ∧ blamed = "comment" ∧ Unclosed c.ahead := by
  rw [← blockComment_failed_iff hc]
  constructor
  · intro h
    obtain ⟨r, hr, hfailed⟩ := failed_of_choice h
    refine triviaUnit_forall (s := s)
      (p := fun r => r c = .failed place expected blamed →
        blockComment c = .failed place expected blamed) ?_ id (fun _ => ?_) r hr hfailed
    · intro h
      unfold blanks at h
      split at h <;> cases h
    · intro h
      unfold lineComment at h
      split at h <;> cases h
  · intro h
    obtain ⟨-, -, -, inner, hahead, -⟩ := (blockComment_failed_iff hc).mp h
    obtain ⟨place', expected', hblanks⟩ : MissesAt blanks c :=
      blanks_misses hc (hahead ▸ head_cons rfl)
    have hfirst : ∀ rules : List (Rule Unit),
        choice (blanks :: blockComment :: rules) none c = .failed place expected blamed := by
      intro rules
      cases rules <;> simp only [choice, firstOf, hblanks, h, Outcome.orElse, Outcome.relabel]
    unfold triviaUnit
    split <;> exact hfirst _

/-! ## Where skipping trivia stops -/

theorem trivia_matched_iff (hc : c.Within) :
    trivia s c = .matched () rest ↔
      ∃ w, c.Reads w rest ∧ TriviaRun s.lineComments w rest.ahead ∧
        NoTrivia s.lineComments rest.ahead := by
  constructor
  · intro h
    obtain ⟨w, hreads, hrun⟩ := (trivia_ensures c () rest hc h).2
    exact ⟨w, hreads, hrun, trivia_maximal hc h⟩
  · rintro ⟨w, hreads, hrun, hstop⟩
    obtain ⟨_, h, -⟩ := accepts_trivia hrun hstop c hc hreads.ahead
    rw [h, hreads.rest]

theorem trivia_failed (hc : c.Within) (h : trivia s c = .failed place expected blamed) :
    ∃ w, c.Reads w place ∧ TriviaRun s.lineComments w place.ahead ∧
      triviaUnit s place = .failed place expected blamed := by
  induction c, hc using (triviaUnit_advances (s := s)).induction with
  | step c hc ih =>
    cases hunit : triviaUnit s c with
    | missed place' expected' =>
      rw [trivia_of_misses ⟨_, _, hunit⟩] at h
      cases h
    | failed place' expected' blamed' =>
      unfold trivia Rule.map at h
      rw [many_of_failed hunit] at h
      cases h
      obtain ⟨rfl, -⟩ := (triviaUnit_failed_iff hc).mp hunit
      exact ⟨[], .refl _, .nil, hunit⟩
    | matched v mid =>
      obtain ⟨hreach, u, hreads, hskipped⟩ := triviaUnit_ensures c v mid hc hunit
      have hpos := (triviaUnit_advances c v mid hc hunit).2
      rw [trivia_of_unit hc hunit (by omega)] at h
      obtain ⟨w, hbehind, hrun, hfailed⟩ := ih v mid (hreach.within hc) hunit h
      rw [hbehind.ahead] at hskipped
      exact ⟨u ++ w, hreads.trans hbehind, triviaRun_append hskipped hrun, hfailed⟩

theorem trivia_fails {w k : List Char} (hrun : TriviaRun s.lineComments w k) (hk : Unclosed k)
    (hc : c.Within) (hahead : c.ahead = w ++ k) :
    trivia s c = .failed (c.advance w.length) (quoted ['*', '/']) "comment" := by
  induction hrun generalizing c with
  | nil =>
    have hunit := (triviaUnit_failed_iff (s := s) hc).mpr ⟨rfl, rfl, rfl, hahead ▸ hk⟩
    unfold trivia Rule.map
    rw [many_of_failed hunit, List.length_nil, Cursor.advance_zero]
    rfl
  | @cons u w k hpiece _ ih =>
    rw [List.append_assoc] at hahead
    rw [trivia_piece hc hahead hpiece,
      ih hk ((hc.reads hahead).within hc) (hc.ahead_advance hahead), Cursor.advance_advance,
      List.length_append]

theorem trivia_failed_iff (hc : c.Within) :
    trivia s c = .failed place expected blamed ↔
      expected = quoted ['*', '/'] ∧ blamed = "comment" ∧
        ∃ w, c.Reads w place ∧ TriviaRun s.lineComments w place.ahead ∧ Unclosed place.ahead := by
  constructor
  · intro h
    obtain ⟨w, hreads, hrun, hunit⟩ := trivia_failed hc h
    obtain ⟨-, hexpected, hblamed, hunclosed⟩ :=
      (triviaUnit_failed_iff (hreads.within hc)).mp hunit
    exact ⟨hexpected, hblamed, w, hreads, hrun, hunclosed⟩
  · rintro ⟨rfl, rfl, w, hreads, hrun, hunclosed⟩
    rw [trivia_fails hrun hunclosed hc hreads.ahead, hreads.rest]

/-! ## Skipping trivia again -/

/-- At whatever place trivia is skipped, none is left behind it. -/
theorem trivia_again (h : trivia s c = .matched () rest) : trivia s rest = .matched () rest := by
  obtain ⟨vs, hmany, -⟩ := map_matched.mp h
  exact trivia_of_misses (triviaUnit_climbs.manyUpTo_misses (Nat.le_refl _) hmany)

theorem token_token (rule : Rule α) : token s (token s rule) = token s rule := by
  funext c
  unfold token
  cases h : trivia s c with
  | matched v rest =>
    show (trivia s rest).bind _ = _
    rw [trivia_again h]
  | missed place expected => rfl
  | failed place expected blamed => rfl

/-- Skipping trivia leads behind the run of blanks and comments with which nothing goes on. Only a
comment without an end behind a run makes it fail, and it names where that comment opens. Where it
stops it stops again, so that a rule with trivia before it may as well have trivia before it
twice. -/
theorem skips_longest_run (s : Settings) :
    (∀ c rest, c.Within →
      (trivia s c = .matched () rest ↔
        ∃ w, c.Reads w rest ∧ TriviaRun s.lineComments w rest.ahead ∧
          NoTrivia s.lineComments rest.ahead)) ∧
    (∀ c place expected blamed, c.Within →
      (trivia s c = .failed place expected blamed ↔
        expected = quoted ['*', '/'] ∧ blamed = "comment" ∧
          ∃ w, c.Reads w place ∧ TriviaRun s.lineComments w place.ahead ∧
            Unclosed place.ahead)) ∧
    (∀ c place expected, trivia s c ≠ .missed place expected) ∧
    (∀ c rest, trivia s c = .matched () rest → trivia s rest = .matched () rest) ∧
    ∀ (α : Type) (rule : Rule α), token s (token s rule) = token s rule :=
  ⟨fun _ _ hc => trivia_matched_iff hc, fun _ _ _ _ hc => trivia_failed_iff hc,
    fun c place expected h => trivia_neverMisses c ⟨place, expected, h⟩, fun _ _ => trivia_again,
    fun _ => token_token⟩

/-- The slash that opens a comment does not close it, and the one that closes it opens none. -/
theorem skips_touching_comments :
    (Cursor.ofText ['/', '*', '/', '*', '/', '/']).Within ∧
      trivia ⟨1, false⟩ (.ofText ['/', '*', '/', '*', '/', '/']) =
        .matched () ((Cursor.ofText ['/', '*', '/', '*', '/', '/']).advance 5) ∧
      trivia ⟨1, true⟩ (.ofText ['/', '*', '/', '*', '/', '/', '*', '/']) =
        .failed ((Cursor.ofText ['/', '*', '/', '*', '/', '/', '*', '/']).advance 5)
          (quoted ['*', '/']) "comment" := by
  have hrun : ∀ lineComments k, TriviaRun lineComments ['/', '*', '/', '*', '/'] k := fun _ _ =>
    triviaRun_piece (@TriviaPiece.block _ ['/'] _ (by decide))
  refine ⟨Cursor.within_ofText _, ?_, ?_⟩
  · refine ((skips_longest_run ⟨1, false⟩).1 _ _ (Cursor.within_ofText _)).mpr ?_
    exact ⟨_, ⟨rfl, rfl⟩, hrun _ _, head_cons rfl, by decide, nofun⟩
  · refine ((skips_longest_run ⟨1, true⟩).2.1 _ _ _ _ (Cursor.within_ofText _)).mpr ?_
    exact ⟨rfl, rfl, _, ⟨rfl, rfl⟩, hrun _ _, ['/'], rfl, by decide⟩

end LessSyntax.Grammar
