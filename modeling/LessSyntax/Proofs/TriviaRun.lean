import LessSyntax.Grammar.Trivia
import LessSyntax.Proofs.Accepting

/-!
# Runs of trivia

A run of trivia is a sequence of blanks and comments. Whether a text is one depends on what
follows it in one respect only: a line comment without a newline ends with the text.

* `triviaRun_append`: runs one after the other are a run.
* `trivia_ensures`: what `trivia` skips is a run.
* `accepts_trivia`: a run is skipped where no further piece of trivia begins behind it.
* `accepts_token`, `token_refuses`, `accepts_symbol`, `symbol_refuses`: rules with trivia before
  them.
-/

namespace LessSyntax.Grammar

open Rule

/-- A blank or a comment, before what follows it. A block comment ends where `*/` stands for
the first time behind its opening. -/
inductive TriviaPiece (lineComments : Bool) : List Char → List Char → Prop
  | blank {b : Char} {k : List Char} (hb : isBlank b = true) : TriviaPiece lineComments [b] k
  | block {inner k : List Char} (hclosed : ¬ ['*', '/'] <:+: inner ++ ['*']) :
    TriviaPiece lineComments ('/' :: '*' :: inner ++ ['*', '/']) k
  | line {inner k : List Char} (hallowed : lineComments = true) (hline : '\n' ∉ inner) :
    TriviaPiece lineComments ('/' :: '/' :: inner ++ ['\n']) k
  | lastLine {inner : List Char} (hallowed : lineComments = true) (hline : '\n' ∉ inner) :
    TriviaPiece lineComments ('/' :: '/' :: inner) []

/-- Any number of blanks and comments, before what follows them. -/
inductive TriviaRun (lineComments : Bool) : List Char → List Char → Prop
  | nil {k : List Char} : TriviaRun lineComments [] k
  | cons {u w k : List Char} (hpiece : TriviaPiece lineComments u (w ++ k))
    (hrun : TriviaRun lineComments w k) : TriviaRun lineComments (u ++ w) k

/-- No blank stands at the start of the text, and no comment that is allowed opens there. -/
structure NoTrivia (lineComments : Bool) (k : List Char) : Prop where
  blank : ∀ c ∈ k.head?, isBlank c = false
  block : ¬ ['/', '*'] <+: k
  line : lineComments = true → ¬ ['/', '/'] <+: k

variable {lineComments : Bool} {w u k : List Char}

/-! ## Runs -/

theorem triviaRun_append (hw : TriviaRun lineComments w (u ++ k))
    (hu : TriviaRun lineComments u k) : TriviaRun lineComments (w ++ u) k := by
  generalize hl : u ++ k = l at hw
  induction hw with
  | nil => exact hu
  | @cons p w l hpiece _ ih =>
    rw [List.append_assoc]
    refine .cons ?_ (ih hl)
    rw [List.append_assoc, hl]
    exact hpiece

theorem triviaRun_piece (h : TriviaPiece lineComments u k) : TriviaRun lineComments u k := by
  have hrun := TriviaRun.cons (w := []) h .nil
  rw [List.append_nil] at hrun
  exact hrun

theorem triviaRun_blanks (h : ∀ b ∈ w, isBlank b = true) : TriviaRun lineComments w k := by
  induction w with
  | nil => exact .nil
  | cons b w ih =>
    exact .cons (u := [b]) (.blank (h b List.mem_cons_self))
      (ih fun d hd => h d (List.mem_cons_of_mem _ hd))

theorem noTrivia_nil : NoTrivia lineComments [] := ⟨by simp, by simp, by simp⟩

theorem noTrivia_cons {c : Char} (hblank : isBlank c = false) (hslash : c ≠ '/') :
    NoTrivia lineComments (c :: k) := by
  refine ⟨by simpa using hblank, ?_, fun _ => ?_⟩ <;>
    · intro h
      have := (List.cons_prefix_cons.mp h).1
      exact hslash this.symm

/-! ## Ends of comments -/

theorem commentEnd?_eq_some {pos stop : Nat} {cs : List Char}
    (h : commentEnd? pos cs = some stop) :
    ∃ inner k, cs = inner ++ ['*', '/'] ++ k ∧ stop = pos + (inner.length + 2) ∧
      ¬ ['*', '/'] <:+: inner ++ ['*'] := by
  induction cs generalizing pos with
  | nil => cases h
  | cons c cs ih =>
    rw [commentEnd?] at h
    split at h
    · rename_i hclose
      obtain ⟨k, hk⟩ := List.isPrefixOf_iff_prefix.mp hclose
      cases h
      exact ⟨[], k, hk.symm, rfl, by simp [List.infix_cons_iff]⟩
    · rename_i hopen
      obtain ⟨inner, k, rfl, rfl, hinner⟩ := ih h
      refine ⟨c :: inner, k, rfl, by simp only [List.length_cons]; omega, ?_⟩
      intro hinfix
      rcases List.infix_cons_iff.mp hinfix with hbegins | hinfix
      · refine hopen (List.isPrefixOf_iff_prefix.mpr (hbegins.trans ⟨'/' :: k, ?_⟩))
        simp
      · exact hinner hinfix

theorem commentEnd?_closed {pos : Nat} {inner : List Char}
    (h : ¬ ['*', '/'] <:+: inner ++ ['*']) (k : List Char) :
    commentEnd? pos (inner ++ ['*', '/'] ++ k) = some (pos + (inner.length + 2)) := by
  induction inner generalizing pos with
  | nil => simp [commentEnd?]
  | cons c inner ih =>
    rw [List.cons_append, List.infix_cons_iff, not_or] at h
    have hopen : ¬ ['*', '/'].isPrefixOf (c :: (inner ++ ['*', '/'] ++ k)) = true := by
      intro hbegins
      rw [List.isPrefixOf_iff_prefix] at hbegins
      refine h.1 (List.prefix_of_prefix_length_le hbegins ⟨'/' :: k, ?_⟩ ?_) <;> simp
    rw [List.cons_append, List.cons_append, commentEnd?, if_neg hopen, ih h.2, List.length_cons]
    congr 1
    omega

theorem lineEnd_newline {pos : Nat} {inner : List Char} (h : '\n' ∉ inner) (k : List Char) :
    lineEnd pos (inner ++ '\n' :: k) = pos + (inner.length + 1) := by
  induction inner generalizing pos with
  | nil => simp [lineEnd]
  | cons c inner ih =>
    obtain ⟨hc, hinner⟩ := List.ne_and_not_mem_of_not_mem_cons h
    have hne : (c == '\n') = false := by simpa using hc.symm
    rw [List.cons_append, lineEnd, hne, if_neg Bool.false_ne_true, ih hinner, List.length_cons]
    omega

theorem lineEnd_last {pos : Nat} {inner : List Char} (h : '\n' ∉ inner) :
    lineEnd pos inner = pos + inner.length := by
  induction inner generalizing pos with
  | nil => rfl
  | cons c inner ih =>
    obtain ⟨hc, hinner⟩ := List.ne_and_not_mem_of_not_mem_cons h
    have hne : (c == '\n') = false := by simpa using hc.symm
    rw [lineEnd, hne, if_neg Bool.false_ne_true, ih hinner, List.length_cons]
    omega

/-! ## What is skipped -/

/-- What a rule for trivia has to skip. -/
def SkipsRun (lineComments : Bool) (c rest : Cursor) : Prop :=
  ∃ w, c.Reads w rest ∧ TriviaRun lineComments w rest.ahead

variable {s : Settings}

theorem blanks_eq {c : Cursor} (hc : c.Within) {b : Char} (hahead : c.ahead = b :: k)
    (hb : isBlank b = true) :
    blanks c = .matched () (c.advance ((k.takeWhile isBlank).length + 1)) := by
  unfold blanks
  rw [Cursor.onward_eq hc.1, hahead, List.takeWhile_cons, if_pos hb, List.length_cons]
  rfl

theorem blanks_misses {c : Cursor} (hc : c.Within) (h : ∀ b ∈ c.ahead.head?, isBlank b = false) :
    MissesAt blanks c := by
  refine ⟨c, "blank", ?_⟩
  unfold blanks
  rw [Cursor.onward_eq hc.1]
  cases hahead : c.ahead with
  | nil => rfl
  | cons b k =>
    have hb := h b (by simp [hahead])
    rw [List.takeWhile_cons, hb]
    rfl

theorem blanks_ensures : blanks.Ensures fun c _ rest => SkipsRun lineComments c rest := by
  intro c v rest hc h
  cases hahead : c.ahead with
  | nil =>
    obtain ⟨place, expected, hmiss⟩ := blanks_misses hc (by simp [hahead])
    rw [hmiss] at h
    cases h
  | cons b k =>
    cases hb : isBlank b with
    | false =>
      obtain ⟨place, expected, hmiss⟩ := blanks_misses hc (by simpa [hahead] using hb)
      rw [hmiss] at h
      cases h
    | true =>
      rw [blanks_eq hc hahead hb] at h
      cases h
      have hsplit : c.ahead = (b :: k.takeWhile isBlank) ++ k.dropWhile isBlank := by
        rw [hahead, List.cons_append, List.takeWhile_append_dropWhile]
      have hreads := hc.reads hsplit
      refine ⟨⟨_, hreads⟩, _, hreads, triviaRun_blanks ?_⟩
      intro d hd
      rcases List.mem_cons.mp hd with rfl | hd
      · exact hb
      · exact List.all_eq_true.mp List.all_takeWhile d hd

theorem blockComment_eq {c : Cursor} (hc : c.Within) {inner : List Char}
    (hclosed : ¬ ['*', '/'] <:+: inner ++ ['*'])
    (hahead : c.ahead = '/' :: '*' :: inner ++ ['*', '/'] ++ k) :
    blockComment c = .matched () (c.advance ('/' :: '*' :: inner ++ ['*', '/']).length) := by
  have hsplit : c.ahead = ['/', '*'] ++ (inner ++ ['*', '/'] ++ k) := by rw [hahead]; rfl
  have hstarts : c.startsWith ['/', '*'] = true :=
    (Cursor.startsWith_iff (by simp)).mpr ⟨_, hsplit⟩
  have hinside : (c.advance 2).ahead = inner ++ ['*', '/'] ++ k := hc.ahead_advance hsplit
  have hpos : 0 ≤ (c.advance 2).pos := ((hc.reads hsplit).within hc).1
  unfold blockComment
  rw [if_pos hstarts]
  simp only [Cursor.counted_eq hpos, hinside, commentEnd?_closed hclosed, Cursor.advance_advance]
  congr 2
  simp only [List.cons_append, List.length_cons, List.length_append, List.length_nil]
  omega

theorem blockComment_misses {c : Cursor} (h : ¬ ['/', '*'] <+: c.ahead) :
    MissesAt blockComment c := by
  refine ⟨c, "comment", ?_⟩
  unfold blockComment
  rw [startsWith_false (by simp) h]
  rfl

theorem blockComment_ensures :
    blockComment.Ensures fun c _ rest => SkipsRun lineComments c rest := by
  intro c v rest hc h
  by_cases hopen : ['/', '*'] <+: c.ahead
  · obtain ⟨k, hk⟩ := hopen
    have hstarts : c.startsWith ['/', '*'] = true :=
      (Cursor.startsWith_iff (by simp)).mpr ⟨k, hk.symm⟩
    have hinside : (c.advance 2).ahead = k := hc.ahead_advance hk.symm
    have hpos : 0 ≤ (c.advance 2).pos := ((hc.reads hk.symm).within hc).1
    have hfull := h
    unfold blockComment at h
    rw [if_pos hstarts] at h
    simp only [Cursor.counted_eq hpos, hinside] at h
    cases hend : commentEnd? 0 k with
    | none => rw [hend] at h; cases h
    | some stop =>
      obtain ⟨inner, l, rfl, -, hclosed⟩ := commentEnd?_eq_some hend
      have hahead : c.ahead = '/' :: '*' :: inner ++ ['*', '/'] ++ l := by rw [← hk]; rfl
      rw [blockComment_eq hc hclosed hahead] at hfull
      cases hfull
      have hreads := hc.reads hahead
      exact ⟨⟨_, hreads⟩, _, hreads, triviaRun_piece (.block hclosed)⟩
  · obtain ⟨place, expected, hmiss⟩ := blockComment_misses hopen
    rw [hmiss] at h
    cases h

theorem lineComment_eq {c : Cursor} (hc : c.Within) {inner : List Char} (hline : '\n' ∉ inner)
    (hahead : c.ahead = '/' :: '/' :: inner ++ ['\n'] ++ k) :
    lineComment c = .matched () (c.advance ('/' :: '/' :: inner ++ ['\n']).length) := by
  have hsplit : c.ahead = ['/', '/'] ++ (inner ++ '\n' :: k) := by rw [hahead]; simp
  have hstarts : c.startsWith ['/', '/'] = true :=
    (Cursor.startsWith_iff (by simp)).mpr ⟨_, hsplit⟩
  have hinside : (c.advance 2).ahead = inner ++ '\n' :: k := hc.ahead_advance hsplit
  have hpos : 0 ≤ (c.advance 2).pos := ((hc.reads hsplit).within hc).1
  unfold lineComment
  rw [if_pos hstarts]
  simp only [Cursor.counted_eq hpos, hinside, lineEnd_newline hline, Cursor.advance_advance]
  congr 2
  simp only [List.cons_append, List.length_cons, List.length_append, List.length_nil]
  omega

theorem lineComment_last {c : Cursor} (hc : c.Within) {inner : List Char} (hline : '\n' ∉ inner)
    (hahead : c.ahead = '/' :: '/' :: inner) :
    lineComment c = .matched () (c.advance ('/' :: '/' :: inner).length) := by
  have hsplit : c.ahead = ['/', '/'] ++ inner := hahead
  have hstarts : c.startsWith ['/', '/'] = true :=
    (Cursor.startsWith_iff (by simp)).mpr ⟨_, hsplit⟩
  have hinside : (c.advance 2).ahead = inner := hc.ahead_advance hsplit
  have hpos : 0 ≤ (c.advance 2).pos := ((hc.reads hsplit).within hc).1
  unfold lineComment
  rw [if_pos hstarts]
  simp only [Cursor.counted_eq hpos, hinside, lineEnd_last hline, Cursor.advance_advance]
  congr 2
  simp only [List.length_cons]
  omega

theorem lineComment_misses {c : Cursor} (h : ¬ ['/', '/'] <+: c.ahead) :
    MissesAt lineComment c := by
  refine ⟨c, "comment", ?_⟩
  unfold lineComment
  rw [startsWith_false (by simp) h]
  rfl

theorem lineComment_ensures (hallowed : lineComments = true) :
    lineComment.Ensures fun c _ rest => SkipsRun lineComments c rest := by
  intro c v rest hc h
  by_cases hopen : ['/', '/'] <+: c.ahead
  · obtain ⟨k, hk⟩ := hopen
    by_cases hnewline : '\n' ∈ k
    · obtain ⟨inner, l, rfl, hline⟩ := List.eq_append_cons_of_mem hnewline
      have hahead : c.ahead = '/' :: '/' :: inner ++ ['\n'] ++ l := by rw [← hk]; simp
      rw [lineComment_eq hc hline hahead] at h
      cases h
      have hreads := hc.reads hahead
      exact ⟨⟨_, hreads⟩, _, hreads, triviaRun_piece (.line hallowed hline)⟩
    · have hahead : c.ahead = '/' :: '/' :: k := hk.symm
      rw [lineComment_last hc hnewline hahead] at h
      cases h
      have hreads := hc.reads (k := []) (by rw [hahead, List.append_nil])
      refine ⟨⟨_, hreads⟩, _, hreads, ?_⟩
      have hend := hc.ahead_advance (k := []) (by rw [hahead, List.append_nil])
      rw [hend]
      exact triviaRun_piece (.lastLine hallowed hnewline)
  · obtain ⟨place, expected, hmiss⟩ := lineComment_misses hopen
    rw [hmiss] at h
    cases h

/-- What holds of the rules for each piece of trivia that is allowed. -/
theorem triviaUnit_forall {p : Rule Unit → Prop} (hblanks : p blanks) (hblock : p blockComment)
    (hline : s.lineComments = true → p lineComment) :
    ∀ r ∈ (if s.lineComments then [blanks, blockComment, lineComment] else [blanks, blockComment]),
      p r := by
  cases hallowed : s.lineComments with
  | false => simp [hblanks, hblock]
  | true => simp [hblanks, hblock, hline hallowed]

theorem triviaUnit_ensures :
    (triviaUnit s).Ensures fun c _ rest => SkipsRun s.lineComments c rest :=
  ensures_choice (triviaUnit_forall blanks_ensures blockComment_ensures lineComment_ensures)

theorem skipsRun_refl (c : Cursor) : SkipsRun lineComments c c := ⟨[], .refl c, .nil⟩

theorem skipsRun_trans {c mid rest : Cursor} (h₁ : SkipsRun lineComments c mid)
    (h₂ : SkipsRun lineComments mid rest) : SkipsRun lineComments c rest := by
  obtain ⟨w, hw, hrun⟩ := h₁
  obtain ⟨u, hu, hrun'⟩ := h₂
  rw [hu.ahead] at hrun
  exact ⟨w ++ u, hw.trans hu, triviaRun_append hrun hrun'⟩

theorem trivia_ensures : (trivia s).Ensures fun c _ rest => SkipsRun s.lineComments c rest :=
  ensures_map (ensures_many triviaUnit_ensures (fun c => skipsRun_refl c)
    fun _ _ _ _ _ _ _ h₁ h₂ => skipsRun_trans h₁ h₂)

/-! ## Where a run is skipped -/

theorem trivia_of_unit {c rest : Cursor} (hc : c.Within)
    (h : triviaUnit s c = .matched () rest) (hpos : rest.pos ≠ c.pos) :
    trivia s c = trivia s rest := by
  unfold trivia Rule.map
  rw [many_of_matched triviaUnit_ensures hc h hpos]
  cases many (triviaUnit s) rest <;> rfl

theorem trivia_of_misses {c : Cursor} (h : MissesAt (triviaUnit s) c) :
    trivia s c = .matched () c := by
  unfold trivia Rule.map
  rw [many_of_misses h]
  rfl

theorem triviaUnit_of_blanks {c rest : Cursor} (h : blanks c = .matched () rest) :
    triviaUnit s c = .matched () rest := by
  unfold triviaUnit
  split <;> exact choice_head h

theorem triviaUnit_of_blockComment {c rest : Cursor} (hmiss : MissesAt blanks c)
    (h : blockComment c = .matched () rest) : triviaUnit s c = .matched () rest := by
  unfold triviaUnit
  split <;> exact choice_tail hmiss (choice_head h)

theorem triviaUnit_of_lineComment {c rest : Cursor} (hallowed : s.lineComments = true)
    (hmiss : MissesAt blanks c) (hmiss' : MissesAt blockComment c)
    (h : lineComment c = .matched () rest) : triviaUnit s c = .matched () rest := by
  unfold triviaUnit
  rw [if_pos hallowed]
  exact choice_tail hmiss (choice_tail hmiss' (choice_head h))

theorem triviaUnit_misses {c : Cursor} (hc : c.Within) (h : NoTrivia s.lineComments c.ahead) :
    MissesAt (triviaUnit s) c :=
  choice_misses (triviaUnit_forall (blanks_misses hc h.blank) (blockComment_misses h.block)
    fun hallowed => lineComment_misses (h.line hallowed))

/-- Where no trivia begins, skipping it stays where it is. -/
theorem trivia_of_noTrivia {c : Cursor} (hc : c.Within) (h : NoTrivia s.lineComments c.ahead) :
    trivia s c = .matched () c :=
  trivia_of_misses (triviaUnit_misses hc h)

theorem pos_advance_ne {c : Cursor} {count : Nat} (h : 0 < count) :
    (c.advance count).pos ≠ c.pos := by
  rw [Cursor.pos_advance]
  omega

/-- A single blank may be skipped first: the run of blanks goes on behind it. -/
theorem trivia_blank {c : Cursor} (hc : c.Within) {b : Char} (hahead : c.ahead = b :: k)
    (hb : isBlank b = true) : trivia s c = trivia s (c.advance 1) := by
  have hfirst := trivia_of_unit (s := s) hc (triviaUnit_of_blanks (blanks_eq hc hahead hb))
    (pos_advance_ne (by omega))
  have hreads := hc.reads_one hahead
  have hbehind : (c.advance 1).ahead = k := hc.ahead_advance_one hahead
  cases k with
  | nil => exact hfirst
  | cons d l =>
    cases hd : isBlank d with
    | false =>
      rw [List.takeWhile_cons, hd] at hfirst
      exact hfirst
    | true =>
      have hsecond := trivia_of_unit (s := s) (hreads.within hc)
        (triviaUnit_of_blanks (blanks_eq (hreads.within hc) hbehind hd))
        (pos_advance_ne (by omega))
      rw [List.takeWhile_cons, if_pos hd, List.length_cons] at hfirst
      rw [Cursor.advance_advance] at hsecond
      rw [hfirst, hsecond]
      congr 2
      omega

theorem trivia_piece {c : Cursor} (hc : c.Within) (hahead : c.ahead = u ++ k)
    (hpiece : TriviaPiece s.lineComments u k) : trivia s c = trivia s (c.advance u.length) := by
  have hslash : ∀ {l : List Char}, c.ahead = '/' :: l → MissesAt blanks c := by
    intro l hl
    apply blanks_misses hc
    intro b hb
    rw [hl] at hb
    cases hb
    decide
  cases hpiece with
  | blank hb => exact trivia_blank hc hahead hb
  | @block inner _ hclosed =>
    exact trivia_of_unit hc
      (triviaUnit_of_blockComment (hslash hahead) (blockComment_eq hc hclosed hahead))
      (pos_advance_ne (by simp))
  | @line inner _ hallowed hline =>
    have hblock : MissesAt blockComment c := by
      apply blockComment_misses
      rw [hahead]
      simp
    exact trivia_of_unit hc
      (triviaUnit_of_lineComment hallowed (hslash hahead) hblock (lineComment_eq hc hline hahead))
      (pos_advance_ne (by simp))
  | @lastLine inner hallowed hline =>
    rw [List.append_nil] at hahead
    have hblock : MissesAt blockComment c := by
      apply blockComment_misses
      rw [hahead]
      simp
    exact trivia_of_unit hc
      (triviaUnit_of_lineComment hallowed (hslash hahead) hblock (lineComment_last hc hline hahead))
      (pos_advance_ne (by simp))

/-- A run is skipped to its end, where no further piece begins. -/
theorem accepts_trivia (hrun : TriviaRun s.lineComments w k) (hstop : NoTrivia s.lineComments k) :
    (trivia s).Accepts w k fun _ => True := by
  induction hrun with
  | nil =>
    intro c hc hahead
    refine ⟨(), ?_, trivial⟩
    rw [List.length_nil, Cursor.advance_zero]
    exact trivia_of_noTrivia hc (hahead ▸ hstop)
  | @cons u w k hpiece _ ih =>
    intro c hc hahead
    rw [List.append_assoc] at hahead
    have hreads := hc.reads hahead
    obtain ⟨v, hv, -⟩ := ih hstop _ (hreads.within hc) (hc.ahead_advance hahead)
    refine ⟨v, ?_, trivial⟩
    rw [trivia_piece hc hahead hpiece, hv, Cursor.advance_advance, List.length_append]

/-! ## Rules with trivia before them -/

variable {α : Type} {rule : Rule α} {cs : List Char} {P : α → Prop}

theorem accepts_token (hrun : TriviaRun s.lineComments w (cs ++ k))
    (hstop : NoTrivia s.lineComments (cs ++ k)) (hrule : rule.Accepts cs k P) :
    (token s rule).Accepts (w ++ cs) k P :=
  accepts_bind (accepts_trivia hrun hstop) fun _ _ => hrule

theorem token_refuses (hrun : TriviaRun s.lineComments w k)
    (hstop : NoTrivia s.lineComments k) (hrule : rule.Refuses k) :
    (token s rule).Refuses (w ++ k) := by
  intro c hc hahead
  obtain ⟨v, hv, -⟩ := accepts_trivia hrun hstop c hc hahead
  obtain ⟨place, expected, hmiss⟩ :=
    hrule _ ((hc.reads hahead).within hc) (hc.ahead_advance hahead)
  exact ⟨place, expected, by simp [token, hv, hmiss]⟩

theorem accepts_symbol (hrun : TriviaRun s.lineComments w (cs ++ k))
    (hstop : NoTrivia s.lineComments (cs ++ k)) (hne : cs ≠ []) :
    (symbol s cs).Accepts (w ++ cs) k fun _ => True :=
  accepts_token hrun hstop (accepts_mono (accepts_literal hne) fun _ _ => trivial)

theorem symbol_refuses (hrun : TriviaRun s.lineComments w k)
    (hstop : NoTrivia s.lineComments k) (hne : cs ≠ []) (hother : ¬ cs <+: k) :
    (symbol s cs).Refuses (w ++ k) :=
  token_refuses hrun hstop (literal_refuses hne hother)

theorem ensures_token {post : Cursor → α → Cursor → Prop} {Q : Cursor → α → Cursor → Prop}
    (hrule : rule.Ensures Q)
    (hpost : ∀ c mid v rest, c.Reaches mid → mid.Reaches rest → SkipsRun s.lineComments c mid →
      Q mid v rest → post c v rest) : (token s rule).Ensures post :=
  ensures_bind trivia_ensures (fun _ => hrule) fun c _ mid v rest => hpost c mid v rest

/-- Trivia is skipped, and then something is read. -/
def ReadsToken (lineComments : Bool) (Q : Cursor → α → Cursor → Prop) (c : Cursor) (v : α)
    (rest : Cursor) : Prop :=
  ∃ mid, SkipsRun lineComments c mid ∧ mid.Within ∧ Q mid v rest

theorem token_ensures {Q : Cursor → α → Cursor → Prop} (hrule : rule.Ensures Q) :
    (token s rule).Ensures (ReadsToken s.lineComments Q) := by
  intro c v rest hc h
  obtain ⟨_, mid, htrivia, hread⟩ := Outcome.bind_matched.mp h
  obtain ⟨hreach, hskip⟩ := trivia_ensures c _ mid hc htrivia
  have hmid := hreach.within hc
  obtain ⟨hreach', hQ⟩ := hrule mid v rest hmid hread
  exact ⟨hreach.trans hreach', mid, hskip, hmid, hQ⟩

/-- Trivia and then the given characters are read. -/
def ReadsSymbol (lineComments : Bool) (chars : List Char) (c rest : Cursor) : Prop :=
  ∃ mid, SkipsRun lineComments c mid ∧ mid.Reads chars rest

theorem symbol_ensures (hne : cs ≠ []) :
    (symbol s cs).Ensures fun c _ rest => ReadsSymbol s.lineComments cs c rest := by
  refine ensures_token (Q := fun mid _ rest => mid.Reads cs rest)
    (ensures_literal hne fun c rest _ hreads => hreads) ?_
  exact fun c mid _ rest _ _ hskip hreads => ⟨mid, hskip, hreads⟩

/-- Values behind separators that commit. -/
theorem separated1_ensures {Q : Cursor → α → Cursor → Prop} {context : String} (hne : cs ≠ [])
    (hrule : rule.Ensures Q) :
    (separated1 rule (symbol s cs) context).Ensures fun c as rest =>
      ∃ mid, Q c as.first mid ∧
        ReadsAll (fun c a rest => ∃ next, ReadsSymbol s.lineComments cs c next ∧ Q next a rest)
          mid as.others rest :=
  ensures_separated1 hrule (symbol_ensures hne) (fun _ => .nil)
    (fun _ _ mid _ _ _ _ _ _ _ hmark hQ => .cons ⟨mid, hmark, hQ⟩)
    fun _ _ mid _ _ _ _ hQ hothers => ⟨mid, hQ, hothers⟩

end LessSyntax.Grammar
