import LessSyntax.Proofs.Advancing

/-!
# Where runs of trivia end

Trivia is skipped as far as there is any. What follows a run matters only to a comment that ends
with the text: where anything follows, the run stays one before any other text, and a newline may
be added to the end of the text or taken from it.

* `trivia_maximal`: no trivia is left where skipping it stops.
* `TriviaRun.before_any`, `TriviaRun.add_newline`, `TriviaRun.drop_newline`: other texts behind a
  run.
* `TriviaRun.last_cases`: what the last character of a run belongs to.
* `TriviaRun.in_lastLine`: a semicolon or a brace ends a run only in a comment up to the end of
  the text. `TriviaRun.replace_last`: any other text may stand there.
-/

namespace LessSyntax.Rule

variable {α β : Type} {rule : Rule α} {c rest : Cursor}

/-! ## Which rule has missed -/

theorem misses_of_bind {next : α → Rule β}
    (h : MissesAt (fun c => (rule c).bind next) c) :
    MissesAt rule c ∨ ∃ a mid, rule c = .matched a mid ∧ MissesAt (next a) mid := by
  obtain ⟨place, expected, h⟩ := h
  dsimp only at h
  cases hrule : rule c with
  | matched a mid =>
    rw [hrule] at h
    exact .inr ⟨a, mid, rfl, place, expected, h⟩
  | missed place' expected' => exact .inl ⟨place', expected', hrule⟩
  | failed place' expected' blamed =>
    rw [hrule] at h
    cases h

theorem misses_of_map {f : α → β} (h : MissesAt (map f rule) c) : MissesAt rule c := by
  rcases misses_of_bind h with hmiss | ⟨a, mid, -, place, expected, hmiss⟩
  · exact hmiss
  · cases hmiss

theorem misses_of_both {second : Rule β} (h : MissesAt (both rule second) c) :
    MissesAt rule c ∨ ∃ a mid, rule c = .matched a mid ∧ MissesAt second mid :=
  (misses_of_bind h).imp_right fun ⟨a, mid, hfirst, hmiss⟩ => ⟨a, mid, hfirst, misses_of_map hmiss⟩

theorem misses_of_orElse {first : Outcome α} {second : Unit → Outcome α} {place : Cursor}
    {expected : String} (h : first.orElse second = .missed place expected) :
    (∃ place expected, first = .missed place expected) ∧
      ∃ place expected, second () = .missed place expected := by
  cases first with
  | matched v rest => cases h
  | failed place' expected' rule => cases h
  | missed place' expected' =>
    refine ⟨⟨place', expected', rfl⟩, ?_⟩
    unfold Outcome.orElse at h
    dsimp only at h
    cases hsecond : second () with
    | matched v rest => rw [hsecond] at h; cases h
    | failed place'' expected'' rule => rw [hsecond] at h; cases h
    | missed place'' expected'' => exact ⟨place'', expected'', rfl⟩

theorem misses_of_relabel {outcome : Outcome α} {label : Option String} {place : Cursor}
    {expected : String} (h : outcome.relabel label = .missed place expected) :
    ∃ place expected, outcome = .missed place expected := by
  cases outcome with
  | matched v rest => cases label <;> cases h
  | failed place' expected' rule => cases label <;> cases h
  | missed place' expected' => exact ⟨place', expected', rfl⟩

theorem misses_of_firstOf {rules : List (Rule α)} (h : MissesAt (firstOf rule rules) c) :
    MissesAt rule c ∧ ∀ r ∈ rules, MissesAt r c := by
  induction rules generalizing rule with
  | nil => exact ⟨h, by simp⟩
  | cons next rules ih =>
    obtain ⟨place, expected, h⟩ := h
    obtain ⟨hrule, hothers⟩ := misses_of_orElse h
    exact ⟨hrule, List.forall_mem_cons.mpr (ih hothers)⟩

/-- A choice misses only where all its rules do. -/
theorem misses_of_choice {rules : List (Rule α)} {label : Option String}
    (h : MissesAt (choice rules label) c) : ∀ r ∈ rules, MissesAt r c := by
  cases rules with
  | nil => simp
  | cons rule rules =>
    obtain ⟨place, expected, h⟩ := h
    exact List.forall_mem_cons.mpr (misses_of_firstOf (misses_of_relabel h))

/-! ## Where a repetition stops -/

/-- Where a repetition stops, its rule misses. -/
theorem many_matched_misses (hrule : rule.Advances) {vs : List α} (hc : c.Within)
    (h : many rule c = .matched vs rest) : MissesAt rule rest := by
  induction c, hc using hrule.induction generalizing vs with
  | step c hc ih =>
    cases hfirst : rule c with
    | missed place expected =>
      rw [many_of_misses ⟨place, expected, hfirst⟩] at h
      cases h
      exact ⟨place, expected, hfirst⟩
    | failed place expected blamed =>
      rw [many_of_failed hfirst] at h
      cases h
    | matched v mid =>
      rw [hrule.many_of_matched hc hfirst] at h
      obtain ⟨us, hus, -⟩ := Outcome.map_matched.mp h
      exact ih v mid ((hrule c v mid hc hfirst).1.within hc) hfirst hus

/-- Every match begins before the end of the text and goes on by a place at least, at whatever
place the rule is run. -/
def Climbs (rule : Rule α) : Prop :=
  ∀ c v rest, rule c = .matched v rest → c.pos < c.size ∧ c.pos < rest.pos ∧ rest.size = c.size

theorem Climbs.advances {post : Cursor → α → Cursor → Prop} (h : rule.Climbs)
    (hrule : rule.Ensures post) : rule.Advances :=
  fun c v rest hc hmatch => ⟨(hrule c v rest hc hmatch).1, (h c v rest hmatch).2.1⟩

theorem climbs_choice {rules : List (Rule α)} {label : Option String}
    (hrules : ∀ r ∈ rules, Climbs r) : (choice rules label).Climbs := by
  induction rules with
  | nil =>
    intro c v rest h
    cases h
  | cons rule rules ih =>
    obtain ⟨hrule, hrules⟩ := List.forall_mem_cons.mp hrules
    intro c v rest h
    rcases choice_cons_matched h with hfirst | ⟨-, hlater⟩
    · exact hrule c v rest hfirst
    · exact ih hrules c v rest hlater

/-- The room of a cursor is enough for all matches behind it, so that where the repetition stops
its rule misses. -/
theorem Climbs.manyUpTo_misses (hrule : rule.Climbs) {bound : Nat} {vs : List α}
    (hbound : c.room ≤ bound) (h : manyUpTo rule bound c = .matched vs rest) :
    MissesAt rule rest := by
  induction bound generalizing c vs with
  | zero =>
    unfold manyUpTo at h
    cases hfirst : rule c with
    | failed place expected blamed =>
      rw [hfirst] at h
      cases h
    | missed place expected =>
      rw [hfirst] at h
      cases h
      exact ⟨place, expected, hfirst⟩
    | matched v mid =>
      have hpos := (hrule c v mid hfirst).1
      unfold Cursor.room at hbound
      omega
  | succ bound ih =>
    unfold manyUpTo at h
    cases hfirst : rule c with
    | failed place expected blamed =>
      rw [hfirst] at h
      cases h
    | missed place expected =>
      rw [hfirst] at h
      cases h
      exact ⟨place, expected, hfirst⟩
    | matched v mid =>
      obtain ⟨-, hpos, hsize⟩ := hrule c v mid hfirst
      rw [hfirst] at h
      dsimp only at h
      rw [if_neg (by omega)] at h
      obtain ⟨us, hus, -⟩ := Outcome.map_matched.mp h
      refine ih ?_ hus
      unfold Cursor.room at hbound ⊢
      omega

end LessSyntax.Rule

namespace LessSyntax.Grammar

open Rule

variable {s : Settings} {lineComments : Bool} {u w k l : List Char}

/-! ## Where trivia ends -/

theorem pos_lt_size_of_ahead {c : Cursor} (h : c.ahead ≠ []) : c.pos < c.size := by
  by_cases hpos : 0 ≤ c.pos
  · have hlength := List.length_pos_iff.mpr h
    rw [Cursor.length_ahead hpos, Cursor.room] at hlength
    omega
  · omega

theorem blanks_climbs : blanks.Climbs := by
  intro c v rest h
  unfold blanks at h
  split at h
  · cases h
  · rename_i hcount
    have hcount : (c.onward.takeWhile isBlank).length ≠ 0 := hcount
    cases h
    refine ⟨?_, by rw [Cursor.pos_advance]; omega, Cursor.size_advance c _⟩
    by_cases hpos : 0 ≤ c.pos
    · apply pos_lt_size_of_ahead
      intro hnil
      rw [Cursor.onward_eq hpos, hnil] at hcount
      exact hcount rfl
    · omega

/-- A comment goes on behind its opening. -/
theorem climbs_comment {c : Cursor} {x y : Char} (h : c.startsWith [x, y] = true) (count : Nat) :
    c.pos < c.size ∧ c.pos < (((c.advance 2).counted).advance count).pos ∧
      (((c.advance 2).counted).advance count).size = c.size := by
  obtain ⟨k, hk⟩ := (Cursor.startsWith_iff (by simp)).mp h
  refine ⟨pos_lt_size_of_ahead (by rw [hk]; simp), ?_, ?_⟩
  · have hpos := Cursor.pos_advance c 2
    rw [Cursor.pos_advance]
    unfold Cursor.counted
    split
    · show c.pos < (fromStart (c.advance 2).size (c.advance 2).pos : Int) + count
      omega
    · omega
  · rw [Cursor.size_advance]
    unfold Cursor.counted
    split <;> exact Cursor.size_advance c 2

theorem blockComment_climbs : blockComment.Climbs := by
  intro c v rest h
  unfold blockComment at h
  split at h
  · rename_i hstarts
    dsimp only at h
    split at h
    · cases h
      exact climbs_comment hstarts _
    · cases h
  · cases h

theorem lineComment_climbs : lineComment.Climbs := by
  intro c v rest h
  unfold lineComment at h
  split at h
  · rename_i hstarts
    cases h
    exact climbs_comment hstarts _
  · cases h

theorem triviaUnit_climbs : (triviaUnit s).Climbs :=
  climbs_choice (triviaUnit_forall blanks_climbs blockComment_climbs fun _ => lineComment_climbs)

theorem triviaUnit_advances : (triviaUnit s).Advances :=
  triviaUnit_climbs.advances triviaUnit_ensures

/-- Where no piece of trivia can be skipped, none begins. -/
theorem noTrivia_of_misses {c : Cursor} (hc : c.Within) (h : MissesAt (triviaUnit s) c) :
    NoTrivia s.lineComments c.ahead := by
  have hrules := misses_of_choice h
  have hmem : ∀ r ∈ [blanks, blockComment], MissesAt r c := by
    intro r hr
    refine hrules r ?_
    split
    · exact List.mem_of_mem_take (i := 2) hr
    · exact hr
  refine ⟨fun b hb => ?_, fun hopen => ?_, fun hallowed hopen => ?_⟩
  · rw [Bool.eq_false_iff]
    intro hblank
    obtain ⟨k, hk⟩ : ∃ k, c.ahead = b :: k := by
      cases hahead : c.ahead with
      | nil => rw [hahead] at hb; cases hb
      | cons x k => rw [hahead] at hb; cases hb; exact ⟨k, rfl⟩
    obtain ⟨place, expected, hmiss⟩ := hmem blanks (by simp)
    rw [blanks_eq hc hk hblank] at hmiss
    cases hmiss
  · obtain ⟨place, expected, hmiss⟩ := hmem blockComment (by simp)
    obtain ⟨k, hk⟩ := hopen
    unfold blockComment at hmiss
    rw [if_pos ((Cursor.startsWith_iff (by simp)).mpr ⟨k, hk.symm⟩)] at hmiss
    dsimp only at hmiss
    split at hmiss <;> cases hmiss
  · obtain ⟨place, expected, hmiss⟩ := hrules lineComment (by rw [if_pos hallowed]; simp)
    obtain ⟨k, hk⟩ := hopen
    unfold lineComment at hmiss
    rw [if_pos ((Cursor.startsWith_iff (by simp)).mpr ⟨k, hk.symm⟩)] at hmiss
    cases hmiss

theorem trivia_maximal {c rest : Cursor} {v : Unit} (hc : c.Within)
    (h : trivia s c = .matched v rest) : NoTrivia s.lineComments rest.ahead := by
  obtain ⟨vs, hmany, -⟩ := map_matched.mp h
  have hrest := (trivia_ensures c v rest hc h).1.within hc
  exact noTrivia_of_misses hrest (many_matched_misses triviaUnit_advances hc hmany)

theorem trivia_neverMisses : NeverMisses (trivia s) :=
  neverMisses_map fun c => neverMisses_manyUpTo (triviaUnit s) c.room c

/-! ## Other texts behind a run -/

theorem TriviaPiece.before_any (h : TriviaPiece lineComments u l) (hl : l ≠ []) (k : List Char) :
    TriviaPiece lineComments u k := by
  cases h with
  | blank hb => exact .blank hb
  | block hclosed => exact .block hclosed
  | line hallowed hline => exact .line hallowed hline
  | lastLine _ _ => exact absurd rfl hl

/-- Before a text that is not empty a run does not depend on what follows it. -/
theorem TriviaRun.before_any (h : TriviaRun lineComments w l) (hl : l ≠ []) (k : List Char) :
    TriviaRun lineComments w k := by
  induction h with
  | nil => exact .nil
  | cons hpiece _ ih =>
    exact .cons (hpiece.before_any (List.append_ne_nil_of_right_ne_nil _ hl) _) (ih hl)

/-- A run stays one where the text ends behind it. -/
theorem TriviaRun.at_end (h : TriviaRun lineComments w k) : TriviaRun lineComments w [] := by
  cases k with
  | nil => exact h
  | cons x k => exact h.before_any (List.cons_ne_nil x k) []

/-- A newline behind a run belongs to its last comment, or is a blank. -/
theorem TriviaRun.add_newline (h : TriviaRun lineComments w []) (k : List Char) :
    TriviaRun lineComments (w ++ ['\n']) k := by
  obtain ⟨l, hl⟩ : ∃ l : List Char, l = [] := ⟨[], rfl⟩
  rw [← hl] at h
  induction h with
  | nil => exact triviaRun_blanks (by simp [isBlank])
  | @cons u w l hpiece hrun ih =>
    rw [List.append_assoc]
    generalize hbehind : w ++ l = m at hpiece
    cases hpiece with
    | blank hb => exact .cons (.blank hb) (ih hl)
    | block hclosed => exact .cons (.block hclosed) (ih hl)
    | line hallowed hline => exact .cons (.line hallowed hline) (ih hl)
    | @lastLine inner hallowed hline =>
      obtain ⟨rfl, -⟩ := List.append_eq_nil_iff.mp hbehind
      exact triviaRun_piece (.line hallowed hline)

/-- A run that is not empty ends with a piece. -/
theorem TriviaRun.last_piece (h : TriviaRun lineComments w k) (hw : w ≠ []) :
    ∃ v u, w = v ++ u ∧ TriviaRun lineComments v (u ++ k) ∧ TriviaPiece lineComments u k := by
  induction h with
  | nil => exact absurd rfl hw
  | @cons p w k hpiece _ ih =>
    by_cases hnil : w = []
    · subst hnil
      exact ⟨[], p, List.append_nil p, .nil, hpiece⟩
    · obtain ⟨v, u, rfl, hrun, hlast⟩ := ih hnil
      rw [List.append_assoc] at hpiece
      exact ⟨p ++ v, u, (List.append_assoc _ _ _).symm, .cons hpiece hrun, hlast⟩

/-- What two texts end with that are the same. -/
theorem last_eq_of_append {v u w : List Char} {x y : Char} (h : w ++ [x] = v ++ (u ++ [y])) :
    w = v ++ u ∧ x = y := by
  rw [← List.append_assoc] at h
  obtain ⟨hw, hx⟩ := List.append_inj' h rfl
  exact ⟨hw, (List.cons.inj hx).1⟩

/-- The last character of a run is a blank, or it closes a comment, or it stands in or behind a
comment that goes up to the end of its line. In such a comment only the end of the text follows. -/
theorem TriviaRun.last_cases {x : Char} (h : TriviaRun lineComments (w ++ [x]) k) :
    isBlank x = true ∧ TriviaRun lineComments w (x :: k) ∨ x = '/' ∨
      lineComments = true ∧ ∃ v inner, w = v ++ '/' :: '/' :: inner ∧ '\n' ∉ inner ∧
        TriviaRun lineComments v ('/' :: '/' :: inner ++ x :: k) ∧ (x = '\n' ∨ k = []) := by
  obtain ⟨v, u, hsplit, hrun, hlast⟩ := h.last_piece (by simp)
  cases hlast with
  | @blank b _ hb =>
    obtain ⟨rfl, rfl⟩ := last_eq_of_append (u := []) hsplit
    rw [List.append_nil]
    exact .inl ⟨hb, hrun⟩
  | @block inner _ hclosed =>
    have hend : w ++ [x] = v ++ ('/' :: '*' :: inner ++ ['*'] ++ ['/']) := by
      rw [hsplit]
      simp
    exact .inr (.inl (last_eq_of_append hend).2)
  | @line inner _ hallowed hline =>
    obtain ⟨rfl, rfl⟩ := last_eq_of_append hsplit
    exact .inr (.inr ⟨hallowed, v, inner, rfl, hline, by simpa using hrun, .inl rfl⟩)
  | @lastLine inner hallowed hline =>
    rcases List.eq_nil_or_concat inner with rfl | ⟨inner, y, rfl⟩
    · exact .inr (.inl (last_eq_of_append (u := ['/']) hsplit).2)
    · rw [List.concat_eq_append] at hsplit hline
      obtain ⟨rfl, rfl⟩ := last_eq_of_append (u := '/' :: '/' :: inner) hsplit
      exact .inr (.inr ⟨hallowed, v, inner, rfl, fun hmem => hline (by simp [hmem]),
        by simpa using hrun, .inr rfl⟩)

/-- A run that ends with a newline is one without it where the text ends. -/
theorem TriviaRun.drop_newline (h : TriviaRun lineComments (w ++ ['\n']) k) :
    TriviaRun lineComments w [] := by
  rcases h.last_cases with ⟨-, hrun⟩ | hclosed | ⟨hallowed, v, inner, rfl, hline, hrun, -⟩
  · exact hrun.before_any (List.cons_ne_nil _ _) []
  · exact absurd hclosed (by decide)
  · refine triviaRun_append ?_ (triviaRun_piece (.lastLine hallowed hline))
    exact hrun.before_any (List.cons_ne_nil _ _) _

/-- What is no blank and closes no comment ends a run only in a comment up to the end of its
line. -/
theorem TriviaRun.solid_last {x : Char} (hsolid : isBlank x = false) (hslash : x ≠ '/')
    (h : TriviaRun lineComments (w ++ [x]) k) :
    lineComments = true ∧ ∃ v inner, w = v ++ '/' :: '/' :: inner ∧ '\n' ∉ inner := by
  rcases h.last_cases with ⟨hblank, -⟩ | hclosed | ⟨hallowed, v, inner, hw, hline, -⟩
  · exact absurd hblank (Bool.eq_false_iff.mp hsolid)
  · exact absurd hclosed hslash
  · exact ⟨hallowed, v, inner, hw, hline⟩

/-- A semicolon or a brace ends a run only in a comment up to the end of the text. -/
theorem TriviaRun.in_lastLine {x : Char} (hx : x = ';' ∨ x = '}')
    (h : TriviaRun lineComments (w ++ [x]) k) :
    lineComments = true ∧ ∃ v inner, w = v ++ '/' :: '/' :: inner ∧ '\n' ∉ inner := by
  refine h.solid_last ?_ ?_ <;> rcases hx with rfl | rfl <;> decide

/-- In that comment any other text on the line may stand for the semicolon or the brace. -/
theorem TriviaRun.replace_last {x : Char} {m : List Char} (hx : x = ';' ∨ x = '}')
    (h : TriviaRun lineComments (w ++ [x]) k) (hm : '\n' ∉ m) :
    k = [] ∧ TriviaRun lineComments (w ++ m) [] := by
  rcases h.last_cases with ⟨hblank, -⟩ | hclosed | ⟨hallowed, v, inner, rfl, hline, hrun, hlast⟩
  · rcases hx with rfl | rfl <;> cases hblank
  · subst hclosed
    rcases hx with hx | hx <;> cases hx
  · refine ⟨hlast.resolve_left ?_, ?_⟩
    · rintro rfl
      rcases hx with hx | hx <;> cases hx
    · have hcomment : TriviaRun lineComments ('/' :: '/' :: (inner ++ m)) [] :=
        triviaRun_piece (.lastLine hallowed (by simp [hline, hm]))
      rw [List.append_assoc, List.cons_append, List.cons_append]
      exact triviaRun_append (hrun.before_any (List.cons_ne_nil _ _) _) hcomment

end LessSyntax.Grammar
