import LessSyntax.Proofs.Advancing
import LessSyntax.Proofs.GrammarTranslation

/-!
# Trivia at the start of a source

Whatever a source is read as, trivia is skipped first, so that blanks and comments before a text
do not count: the answer is the one on the text without them, further on. A report keeps its
wording; only its places move.

* `Rule.SkipsFirst`: a rule that begins by skipping trivia.
* `Entry.parse_behind_trivia`: the answer on a text with trivia before it.
-/

namespace LessSyntax.Grammar

open Rule

variable {α β : Type} {s : Settings} {rule : Rule α}

/-! ## Rules that skip trivia first -/

/-- What the rule does depends on nothing but where the trivia ahead ends. -/
def SkipsFirst (s : Settings) (rule : Rule α) : Prop :=
  ∀ {c d : Cursor}, trivia s c = trivia s d → rule c = rule d

theorem skipsFirst_token (rule : Rule α) : SkipsFirst s (token s rule) := by
  intro c d h
  rw [token, h, token]

theorem skipsFirst_bind {next : α → Rule β} (hrule : SkipsFirst s rule) :
    SkipsFirst s fun c => (rule c).bind next := by
  intro c d h
  dsimp only
  rw [hrule h]

theorem skipsFirst_map {f : α → β} (hrule : SkipsFirst s rule) : SkipsFirst s (map f rule) :=
  skipsFirst_bind hrule

theorem skipsFirst_both {second : Rule β} (hrule : SkipsFirst s rule) :
    SkipsFirst s (both rule second) :=
  skipsFirst_bind hrule

theorem skipsFirst_terminated {after : Rule β} (hrule : SkipsFirst s rule) :
    SkipsFirst s (terminated rule after) :=
  skipsFirst_map (skipsFirst_both hrule)

theorem skipsFirst_separated1 {separator : Rule β} {context : String}
    (hrule : SkipsFirst s rule) : SkipsFirst s (separated1 rule separator context) :=
  skipsFirst_bind hrule

theorem skipsFirst_firstOf {rules : List (Rule α)} (hrule : SkipsFirst s rule)
    (hrules : ∀ r ∈ rules, SkipsFirst s r) : SkipsFirst s (firstOf rule rules) := by
  induction rules generalizing rule with
  | nil => exact hrule
  | cons next rules ih =>
    intro c d h
    have hothers : SkipsFirst s (firstOf next rules) :=
      ih (hrules next List.mem_cons_self) fun r hr => hrules r (List.mem_cons_of_mem _ hr)
    rw [firstOf, firstOf, hrule h, hothers h]

theorem skipsFirst_choice {rules : List (Rule α)} {expected : Option String}
    (hne : rules ≠ []) (hrules : ∀ r ∈ rules, SkipsFirst s r) :
    SkipsFirst s (choice rules expected) := by
  cases rules with
  | nil => exact absurd rfl hne
  | cons rule rules =>
    intro c d h
    have hfirst : SkipsFirst s (firstOf rule rules) :=
      skipsFirst_firstOf (hrules rule List.mem_cons_self) fun r hr =>
        hrules r (List.mem_cons_of_mem _ hr)
    rw [choice, choice, hfirst h]

/-- Where the first element of a repetition is missing nothing has been skipped; the end of the
text is looked for behind trivia nevertheless. -/
theorem skipsFirst_whole_many {f : List α → β} {expected : String} (hrule : SkipsFirst s rule)
    (hadvances : rule.Advances) {c d : Cursor} (hc : c.Within) (hd : d.Within)
    (h : trivia s c = trivia s d) :
    whole s (map f (many rule)) expected c = whole s (map f (many rule)) expected d := by
  have hsame := hrule h
  have hend : token s (endOf expected) c = token s (endOf expected) d := skipsFirst_token _ h
  cases hfirst : rule c with
  | missed place label =>
    have hmany : many rule c = .matched [] c := many_of_misses ⟨place, label, hfirst⟩
    have hmany' : many rule d = .matched [] d := many_of_misses ⟨place, label, hsame ▸ hfirst⟩
    simp [whole, terminated, map, both, hmany, hmany', hend]
  | failed place label blamed =>
    have hfirst' : rule d = .failed place label blamed := hsame ▸ hfirst
    have hmany : many rule c = many rule d := by
      rw [many_of_failed hfirst, many_of_failed hfirst']
    simp only [whole, terminated, map, both, hmany]
  | matched v rest =>
    have hfirst' : rule d = .matched v rest := hsame ▸ hfirst
    have hmany : many rule c = many rule d := by
      rw [hadvances.many_of_matched hc hfirst, hadvances.many_of_matched hd hfirst']
    simp only [whole, terminated, map, both, hmany]

/-! ## The rules of the entries -/

theorem skipsFirst_selectorGroup : SkipsFirst s (selectorGroup s) :=
  skipsFirst_separated1 (skipsFirst_token _)

theorem skipsFirst_valueAt (levels : Nat) : SkipsFirst s (valueAt s levels) :=
  skipsFirst_map (skipsFirst_separated1 (skipsFirst_map (skipsFirst_bind (skipsFirst_map
    (skipsFirst_separated1 (skipsFirst_token _))))))

theorem skipsFirst_declarationAt (levels : Nat) : SkipsFirst s (declarationAt s levels) :=
  skipsFirst_bind (skipsFirst_terminated (skipsFirst_token _))

theorem skipsFirst_itemAt (levels : Nat) : SkipsFirst s (itemAt s levels) := by
  refine skipsFirst_choice (List.cons_ne_nil _ _) fun r hr => ?_
  simp only [List.mem_cons, List.not_mem_nil, or_false] at hr
  rcases hr with rfl | rfl | rfl | rfl | rfl | rfl
  · exact skipsFirst_map (skipsFirst_both (skipsFirst_terminated (skipsFirst_token _)))
  · exact skipsFirst_declarationAt levels
  · exact skipsFirst_map (skipsFirst_terminated (skipsFirst_terminated (skipsFirst_map
      (skipsFirst_both (skipsFirst_token _)))))
  · exact skipsFirst_map (skipsFirst_both skipsFirst_selectorGroup)
  · exact skipsFirst_bind (skipsFirst_terminated (skipsFirst_token _))
  · exact skipsFirst_map (skipsFirst_terminated (skipsFirst_terminated (skipsFirst_token _)))

/-! ## Runs of trivia -/

/-- Trivia that stands ahead may be skipped first. -/
theorem trivia_of_run {w k : List Char} (hrun : TriviaRun s.lineComments w k) :
    ∀ {c : Cursor}, c.Within → c.ahead = w ++ k → trivia s c = trivia s (c.advance w.length) := by
  induction hrun with
  | nil =>
    intro c _ _
    rw [List.length_nil, Cursor.advance_zero]
  | @cons u w k hpiece _ ih =>
    intro c hc hahead
    rw [List.append_assoc] at hahead
    rw [trivia_piece hc hahead hpiece, ih ((hc.reads hahead).within hc) (hc.ahead_advance hahead),
      Cursor.advance_advance, List.length_append]

end LessSyntax.Grammar

namespace LessSyntax

open Grammar Rule

variable {α β : Type} {s : Settings} {w cs : List Char} {url : Option String} {offset : Int}
  {move : α → α} {move' : β → β}

/-! ## Answers -/

/-- The answers on a text and on a longer one in which the text begins at the offset: the same
value with its places moved, or reports that differ in their places only. -/
inductive Translated (offset : Int) (move : α → α) :
    Except Diagnostic α → Except Diagnostic α → Prop
  | read {v : α} : Translated offset move (.ok v) (.ok (move v))
  | reported {e e' : Diagnostic} (hmessage : e'.message = e.message) (hrule : e'.rule = e.rule)
    (hexpected : e'.expected = e.expected) (hoffset : e'.offset = e.offset + offset) :
    Translated offset move (.error e) (.error e')

theorem Translated.map {f : α → β} {a b : Except Diagnostic α} (h : Translated offset move a b)
    (hf : ∀ v, f (move v) = move' (f v)) : Translated offset move' (a.map f) (b.map f) := by
  cases h with
  | @read v =>
    show Translated offset move' (.ok (f v)) (.ok (f (move v)))
    rw [hf]
    exact .read
  | reported hmessage hrule hexpected hoffset =>
    exact .reported hmessage hrule hexpected hoffset

theorem describe_behind {n : Int} {place : Cursor} (h : 0 ≤ place.pos) :
    describe (place.behind w n) = describe place := by
  rw [describe, describe, Cursor.atEnd_behind, Cursor.ahead_behind h]

theorem report_behind {n : Int} {place : Cursor} (h : 0 ≤ place.pos) (source source' : Source)
    (expected : String) (rule : Option String) :
    Translated w.length move (.error (source.report place expected rule))
      (.error (source'.report (place.behind w n) expected rule)) := by
  refine .reported ?_ rfl rfl rfl
  simp only [Source.report, describe_behind h]

theorem Carried.answer {n : Int} {c : Cursor} {a b : Outcome α} (hc : c.Within)
    (h : Carried w n move c a b) (source source' : Source) :
    Translated w.length move (a.answer source) (b.answer source') := by
  have hstart := hc.1
  cases h with
  | matched _ => exact .read
  | missed hplace =>
    have hle := hplace.pos_le
    exact report_behind (by omega) source source' _ _
  | failed hplace =>
    have hle := hplace.pos_le
    exact report_behind (by omega) source source' _ _

/-- A rule that skips trivia first gives the same answer behind trivia. -/
theorem parse_behind {rule : Rule α} {expected : String} (hcarries : rule.Carries w 0 move)
    (hskips : ∀ {c d : Cursor}, c.Within → d.Within → trivia s c = trivia s d →
      whole s rule expected c = whole s rule expected d)
    (hw : TriviaRun s.lineComments w cs) :
    Translated w.length move (parse s rule ⟨cs, url⟩ expected)
      (parse s rule ⟨w ++ cs, url⟩ expected) := by
  have hstart := Cursor.within_ofText cs
  have hlong := Cursor.within_ofText (w ++ cs)
  have hsame : whole s rule expected (Cursor.ofText (w ++ cs))
      = whole s rule expected ((Cursor.ofText cs).behind w 0) := by
    have htrivia := trivia_of_run hw hlong (Cursor.ahead_ofText (w ++ cs))
    rw [Cursor.ofText_append] at htrivia
    exact hskips hlong hstart.behind htrivia
  have hwhole : (whole s rule expected).Carries w 0 move :=
    carries_terminated hcarries (token_carries (carries_endOf expected))
  unfold parse
  rw [hsame]
  exact (hwhole _ hstart).answer hstart _ _

theorem parse_behind_of_skipsFirst {rule : Rule α} {expected : String}
    (hcarries : rule.Carries w 0 move) (hskips : SkipsFirst s rule)
    (hw : TriviaRun s.lineComments w cs) :
    Translated w.length move (parse s rule ⟨cs, url⟩ expected)
      (parse s rule ⟨w ++ cs, url⟩ expected) :=
  parse_behind hcarries (fun _ _ h => skipsFirst_terminated hskips h) hw

theorem Entry.parse_translated (entry : Entry) (s : Settings) (cs : List Char)
    (url : Option String) (hw : TriviaRun s.lineComments w cs) :
    Translated w.length (Tree.shift w.length) (entry.parse s ⟨cs, url⟩)
      (entry.parse s ⟨w ++ cs, url⟩) := by
  cases entry with
  | stylesheet =>
    have hitems : (map Stylesheet.mk (many (itemAt s s.maxDepth))).Carries w 0
        (Stylesheet.shift w.length) :=
      carries_map (many_carries (itemAt_carries s.maxDepth)) fun _ => rfl
    refine .map ?_ fun _ => rfl
    rw [parseStylesheet_eq, parseStylesheet_eq]
    exact parse_behind hitems (fun hc hd h =>
      skipsFirst_whole_many (skipsFirst_itemAt _) (itemAt_advances _) hc hd h) hw
  | item =>
    refine .map ?_ fun _ => rfl
    rw [parseItem_eq, parseItem_eq]
    exact parse_behind_of_skipsFirst (itemAt_carries _) (skipsFirst_itemAt _) hw
  | declaration =>
    refine .map ?_ fun _ => rfl
    rw [parseDeclaration_eq, parseDeclaration_eq]
    exact parse_behind_of_skipsFirst declarationAt_carries (skipsFirst_declarationAt _) hw
  | value =>
    refine .map ?_ fun _ => rfl
    rw [parseValue_eq, parseValue_eq]
    exact parse_behind_of_skipsFirst (valueAt_carries _) (skipsFirst_valueAt _) hw
  | selectorGroup =>
    exact .map (parse_behind_of_skipsFirst selectorGroup_carries skipsFirst_selectorGroup hw)
      fun _ => rfl

/-- Trivia before a source moves the places in the answer, and changes nothing else. -/
theorem Entry.parse_behind_trivia (entry : Entry) (s : Settings) (w cs : List Char)
    (url : Option String) (hw : TriviaRun s.lineComments w cs) :
    (∀ t, entry.parse s ⟨cs, url⟩ = .ok t →
      entry.parse s ⟨w ++ cs, url⟩ = .ok (t.shift w.length)) ∧
    ∀ e, entry.parse s ⟨cs, url⟩ = .error e →
      ∃ e', entry.parse s ⟨w ++ cs, url⟩ = .error e' ∧ e'.message = e.message ∧
        e'.rule = e.rule ∧ e'.expected = e.expected ∧ e'.offset = e.offset + w.length := by
  have h := entry.parse_translated s cs url hw
  generalize entry.parse s ⟨cs, url⟩ = answer at h ⊢
  generalize entry.parse s ⟨w ++ cs, url⟩ = answer' at h ⊢
  cases h with
  | @read t =>
    refine ⟨fun u hu => ?_, fun e he => (nomatch he)⟩
    cases hu
    rfl
  | @reported e e' hmessage hrule hexpected hoffset =>
    refine ⟨fun u hu => (nomatch hu), fun d hd => ?_⟩
    cases hd
    exact ⟨e', rfl, hmessage, hrule, hexpected, hoffset⟩

/-- Both kinds of comments and a blank before a rule; and before a text that is not read. -/
theorem stylesheet_behind_comments :
    ∃ t, Entry.stylesheet.parse ⟨1, true⟩ ⟨['a', '{', '}'], none⟩ = .ok t ∧
      Entry.stylesheet.parse ⟨1, true⟩
        ⟨['/', '/', '\n', '/', '*', '*', '/', ' '] ++ ['a', '{', '}'], none⟩ = .ok (t.shift 8) ∧
      ∃ e, Entry.stylesheet.parse ⟨1, true⟩
        ⟨['/', '/', '\n', '/', '*', '*', '/', ' '] ++ ['a', '{'], none⟩ = .error e ∧
        e.offset = 10 := by
  have hline : ∀ k, TriviaPiece true ['/', '/', '\n'] k :=
    fun k => @TriviaPiece.line true [] k rfl (by simp)
  have hblock : ∀ k, TriviaPiece true ['/', '*', '*', '/'] k :=
    fun k => @TriviaPiece.block true [] k (by decide)
  have hw : ∀ k, TriviaRun true ['/', '/', '\n', '/', '*', '*', '/', ' '] k :=
    fun k => .cons (hline _) (.cons (hblock _) (.cons (u := [' ']) (.blank rfl) .nil))
  obtain ⟨t, hread⟩ : ∃ t, Entry.stylesheet.parse ⟨1, true⟩ ⟨['a', '{', '}'], none⟩ = .ok t :=
    ⟨_, rfl⟩
  obtain ⟨e, hmiss, hoffset⟩ : ∃ e, Entry.stylesheet.parse ⟨1, true⟩ ⟨['a', '{'], none⟩ = .error e ∧
      e.offset = 2 := ⟨_, rfl, rfl⟩
  obtain ⟨e', hmiss', -, -, -, hoffset'⟩ :=
    (Entry.stylesheet.parse_behind_trivia ⟨1, true⟩ _ _ none (hw _)).2 e hmiss
  refine ⟨t, hread, (Entry.stylesheet.parse_behind_trivia ⟨1, true⟩ _ _ none (hw _)).1 t hread,
    e', hmiss', ?_⟩
  rw [hoffset', hoffset]
  rfl

end LessSyntax
