import LessSyntax.Rule.Basic

/-!
# What a match reads

A rule that matches at a cursor in its text leads to a cursor further on, and the characters
between the two are what it has read. `Rule.Ensures` says so, together with a postcondition
that relates the cursor, the value and the cursor behind it. There is one lemma for each way
to combine rules, so that a fact about all matches of the grammar needs one line for each of
its rules.

* `Cursor.Reads`: the characters between two cursors.
* `Rule.choice_cons_matched`: which rule of a choice matches, and that those before it miss.
* `Rule.manyUpTo_matched`, `Rule.separatedUpTo_matched`: one step of a repetition.
* `Rule.ensures_bind`, `Rule.ensures_choice`, `Rule.ensures_many`, `Rule.ensures_separated1`:
  postconditions of combined rules.
-/

namespace LessSyntax

variable {α β γ : Type}

/-! ## Reading on -/

namespace Cursor

/-- The cursor stands in its text or right behind it. -/
def Within (c : Cursor) : Prop := 0 ≤ c.pos ∧ c.pos ≤ c.size

/-- Reading the given characters leads from the one cursor to the other. -/
structure Reads (c : Cursor) (cs : List Char) (rest : Cursor) : Prop where
  ahead : c.ahead = cs ++ rest.ahead
  rest : rest = c.advance cs.length

/-- The other cursor stands further on, or at the same place. -/
def Reaches (c rest : Cursor) : Prop := ∃ cs, c.Reads cs rest

theorem within_ofText (text : List Char) : (ofText text).Within :=
  ⟨Int.le_refl 0, Int.natCast_nonneg _⟩

@[simp]
theorem ahead_ofText (text : List Char) : (ofText text).ahead = text := rfl

@[simp]
theorem size_advance (c : Cursor) (count : Nat) : (c.advance count).size = c.size := by
  rw [(c.advance count).size_eq, c.size_eq, text_advance]

theorem Within.length_ahead {c : Cursor} (hc : c.Within) :
    (c.ahead.length : Int) = c.size - c.pos := by
  obtain ⟨hstart, hstop⟩ := hc
  rw [Cursor.length_ahead hstart, room]
  omega

theorem Within.advance {c : Cursor} (hc : c.Within) {count : Nat}
    (hcount : count ≤ c.ahead.length) : (c.advance count).Within := by
  have hlength := hc.length_ahead
  obtain ⟨hstart, hstop⟩ := hc
  rw [Within, pos_advance, size_advance]
  omega

theorem Within.nested {c : Cursor} (hc : c.Within) : c.nested.Within := hc

theorem Within.ahead_advance {c : Cursor} (hc : c.Within) {cs k : List Char}
    (h : c.ahead = cs ++ k) : (c.advance cs.length).ahead = k := by
  rw [Cursor.ahead_advance hc.1, h, List.drop_left]

theorem Within.reads {c : Cursor} (hc : c.Within) {cs k : List Char} (h : c.ahead = cs ++ k) :
    c.Reads cs (c.advance cs.length) :=
  ⟨by rw [hc.ahead_advance h, h], rfl⟩

/-- As many characters as are ahead can be read. -/
theorem Within.reads_take {c : Cursor} (hc : c.Within) {count : Nat}
    (hcount : count ≤ c.ahead.length) : ∃ cs, cs.length = count ∧ c.Reads cs (c.advance count) := by
  have hlength : (c.ahead.take count).length = count := by
    rw [List.length_take]
    exact Nat.min_eq_left hcount
  have hreads := hc.reads (List.take_append_drop count c.ahead).symm
  rw [hlength] at hreads
  exact ⟨_, hlength, hreads⟩

theorem Within.reads_one {c : Cursor} (hc : c.Within) {x : Char} {k : List Char}
    (h : c.ahead = x :: k) : c.Reads [x] (c.advance 1) := by
  have hsplit : c.ahead = [x] ++ k := h
  exact hc.reads hsplit

theorem Within.ahead_advance_one {c : Cursor} (hc : c.Within) {x : Char} {k : List Char}
    (h : c.ahead = x :: k) : (c.advance 1).ahead = k := by
  have hsplit : c.ahead = [x] ++ k := h
  exact hc.ahead_advance hsplit

/-- At the end of the text nothing is ahead. -/
theorem Within.atEnd_iff {c : Cursor} (hc : c.Within) : c.atEnd = true ↔ c.ahead = [] := by
  have hlength := hc.length_ahead
  have hstop := hc.2
  rw [← List.length_eq_zero_iff, atEnd, decide_eq_true_iff]
  omega

@[simp]
theorem withDepth_advance (c : Cursor) (depth : Int) (count : Nat) :
    (c.withDepth depth).advance count = (c.advance count).withDepth depth := by
  refine ext_pos ?_ ?_ ?_
  · simp
  · simp
  · simp

/-- Moving on inside a block or call and leaving it is moving on. -/
@[simp]
theorem nested_advance_withDepth (c : Cursor) (count : Nat) :
    (c.nested.advance count).withDepth c.depth = c.advance count := by
  rw [nested, withDepth_advance]
  refine ext_pos rfl rfl ?_
  simp

theorem startsWith_iff {c : Cursor} {literal : List Char} (hne : literal ≠ []) :
    c.startsWith literal = true ↔ ∃ k, c.ahead = literal ++ k := by
  have hnonempty : literal.isEmpty = false := by simpa using hne
  simp only [startsWith, hnonempty, Bool.not_false, Bool.true_or, Bool.and_true,
    List.isPrefixOf_iff_prefix]
  constructor
  · rintro ⟨k, hk⟩
    exact ⟨k, hk.symm⟩
  · rintro ⟨k, hk⟩
    exact ⟨k, hk.symm⟩

@[simp]
theorem hasLength_next (c : Cursor) (count : Nat) : (c.next count).hasLength = true := by
  have hforward : ¬ c.pos + count < c.pos := by omega
  simp [Text.hasLength, next, slice, Span.isBackward, hforward]

namespace Reads

variable {c mid rest : Cursor} {cs ds : List Char}

theorem refl (c : Cursor) : c.Reads [] c := ⟨rfl, (advance_zero c).symm⟩

theorem trans (h₁ : c.Reads cs mid) (h₂ : mid.Reads ds rest) : c.Reads (cs ++ ds) rest := by
  refine ⟨?_, ?_⟩
  · rw [h₁.ahead, h₂.ahead, List.append_assoc]
  · rw [h₂.rest, h₁.rest, advance_advance, List.length_append]

theorem text (h : c.Reads cs rest) : rest.text = c.text := by
  rw [h.rest, text_advance]

theorem pos (h : c.Reads cs rest) : rest.pos = c.pos + cs.length := by
  rw [h.rest, pos_advance]

theorem depth (h : c.Reads cs rest) : rest.depth = c.depth := by
  rw [h.rest, depth_advance]

theorem within (h : c.Reads cs rest) (hc : c.Within) : rest.Within := by
  rw [h.rest]
  apply hc.advance
  rw [h.ahead, List.length_append]
  omega

theorem chars_next (hc : c.Within) (h : c.Reads cs rest) : (c.next cs.length).chars = cs := by
  rw [Cursor.chars_next hc.1, h.ahead, List.take_left]

/-- What a block or call reads is read by the cursor around it. -/
theorem of_nested (h : c.nested.Reads cs rest) : c.Reads cs (rest.withDepth c.depth) := by
  refine ⟨h.ahead, ?_⟩
  rw [h.rest, nested_advance_withDepth]

/-- The place before a character that has been read. -/
theorem back_one {x : Char} (h : c.Reads [x] rest) : rest.moveTo (rest.pos - 1) = c := by
  refine ext_pos h.text ?_ h.depth
  show rest.pos - 1 = c.pos
  rw [h.pos]
  simp

theorem of_startsWith {x : Char} (hc : c.Within) (h : c.startsWith [x] = true) :
    c.Reads [x] (c.advance 1) := by
  obtain ⟨k, hk⟩ := (startsWith_iff (by simp)).mp h
  exact hc.reads_one hk

end Reads

namespace Reaches

variable {c mid rest : Cursor}

theorem refl (c : Cursor) : c.Reaches c := ⟨[], .refl c⟩

theorem trans (h₁ : c.Reaches mid) (h₂ : mid.Reaches rest) : c.Reaches rest := by
  obtain ⟨cs, h₁⟩ := h₁
  obtain ⟨ds, h₂⟩ := h₂
  exact ⟨cs ++ ds, h₁.trans h₂⟩

theorem within (h : c.Reaches rest) (hc : c.Within) : rest.Within := by
  obtain ⟨cs, h⟩ := h
  exact h.within hc

theorem text (h : c.Reaches rest) : rest.text = c.text := by
  obtain ⟨cs, h⟩ := h
  exact h.text

theorem depth (h : c.Reaches rest) : rest.depth = c.depth := by
  obtain ⟨cs, h⟩ := h
  exact h.depth

/-- What is reached inside a block or call is reached around it. -/
theorem of_nested (h : c.nested.Reaches rest) : c.Reaches (rest.withDepth c.depth) := by
  obtain ⟨cs, h⟩ := h
  exact ⟨cs, h.of_nested⟩

theorem pos_le (h : c.Reaches rest) : c.pos ≤ rest.pos := by
  obtain ⟨cs, h⟩ := h
  have := h.pos
  omega

theorem room_lt (h : c.Reaches rest) (hc : c.Within) (hpos : rest.pos ≠ c.pos) :
    rest.room < c.room := by
  obtain ⟨cs, h⟩ := h
  have hrest := h.within hc
  have hsize : rest.size = c.size := by rw [h.rest, size_advance]
  have hstop := hrest.2
  have := h.pos
  simp only [room, hsize] at hstop ⊢
  omega

theorem room_le (h : c.Reaches rest) (hc : c.Within) : rest.room ≤ c.room := by
  by_cases hpos : rest.pos = c.pos
  · have hsize : rest.size = c.size := by
      obtain ⟨cs, h⟩ := h
      rw [h.rest, size_advance]
    exact Nat.le_of_eq (by rw [room, room, hsize, hpos])
  · exact Nat.le_of_lt (h.room_lt hc hpos)

end Reaches

end Cursor

/-! ## Matches of combined rules -/

namespace Outcome

theorem bind_matched {outcome : Outcome α} {next : α → Cursor → Outcome β} {v : β}
    {rest : Cursor} : outcome.bind next = .matched v rest ↔
      ∃ a mid, outcome = .matched a mid ∧ next a mid = .matched v rest := by
  cases outcome with
  | matched a mid =>
    constructor
    · intro h
      exact ⟨a, mid, rfl, h⟩
    · rintro ⟨a', mid', h, hnext⟩
      cases h
      exact hnext
  | missed place expected => simp [bind]
  | failed place expected rule => simp [bind]

theorem map_matched {outcome : Outcome α} {f : α → β} {v : β} {rest : Cursor} :
    outcome.map f = .matched v rest ↔ ∃ a, outcome = .matched a rest ∧ f a = v := by
  rw [map, bind_matched]
  constructor
  · rintro ⟨a, mid, houtcome, h⟩
    cases h
    exact ⟨a, houtcome, rfl⟩
  · rintro ⟨a, houtcome, rfl⟩
    exact ⟨a, rest, houtcome, rfl⟩

end Outcome

namespace Rule

/-- The rule misses at the cursor. -/
def MissesAt (rule : Rule α) (c : Cursor) : Prop :=
  ∃ place expected, rule c = .missed place expected

theorem orElse_matched {first : Outcome α} {second : Unit → Outcome α} {v : α} {rest : Cursor}
    (h : first.orElse second = .matched v rest) :
    first = .matched v rest ∨
      (∃ place expected, first = .missed place expected) ∧ second () = .matched v rest := by
  cases first with
  | matched a mid => exact Or.inl h
  | failed place expected rule => cases h
  | missed place expected =>
    refine Or.inr ⟨⟨place, expected, rfl⟩, ?_⟩
    unfold Outcome.orElse at h
    dsimp only at h
    cases hsecond : second () with
    | matched a mid => rw [hsecond] at h; exact h
    | missed place' expected' =>
      rw [hsecond] at h
      dsimp only at h
      split at h <;> cases h
    | failed place' expected' rule => rw [hsecond] at h; cases h

theorem relabel_matched {outcome : Outcome α} {expected : Option String} {v : α} {rest : Cursor} :
    outcome.relabel expected = .matched v rest ↔ outcome = .matched v rest := by
  cases outcome <;> cases expected <;> simp [Outcome.relabel]

/-- A choice that matches does so by its first rule, or by the others where that one misses. -/
theorem choice_cons_matched {rule : Rule α} {rules : List (Rule α)} {expected : Option String}
    {c rest : Cursor} {v : α} (h : choice (rule :: rules) expected c = .matched v rest) :
    rule c = .matched v rest ∨ MissesAt rule c ∧ choice rules expected c = .matched v rest := by
  cases rules with
  | nil => exact Or.inl (relabel_matched.mp h)
  | cons next rules =>
    rcases orElse_matched (relabel_matched.mp h) with hfirst | ⟨hmiss, hlater⟩
    · exact Or.inl hfirst
    · exact Or.inr ⟨hmiss, relabel_matched.mpr hlater⟩

theorem cut_matched {rule : Rule α} {context : String} {c rest : Cursor} {v : α} :
    cut rule context c = .matched v rest ↔ rule c = .matched v rest := by
  unfold cut
  cases rule c <;> simp

theorem opt_matched {rule : Rule α} {c rest : Cursor} {v : Option α}
    (h : opt rule c = .matched v rest) :
    (∃ a, v = some a ∧ rule c = .matched a rest) ∨ v = none ∧ rest = c ∧ MissesAt rule c := by
  unfold opt at h
  cases hrule : rule c with
  | matched a mid =>
    rw [hrule] at h
    cases h
    exact Or.inl ⟨a, rfl, rfl⟩
  | missed place expected =>
    rw [hrule] at h
    cases h
    exact Or.inr ⟨rfl, rfl, place, expected, hrule⟩
  | failed place expected blamed => rw [hrule] at h; cases h

theorem peek_matched {rule : Rule α} {c rest : Cursor} {v : α}
    (h : peek rule c = .matched v rest) : rest = c ∧ ∃ mid, rule c = .matched v mid := by
  unfold peek at h
  cases hrule : rule c with
  | matched a mid =>
    rw [hrule] at h
    cases h
    exact ⟨rfl, mid, rfl⟩
  | missed place expected => rw [hrule] at h; cases h
  | failed place expected blamed => rw [hrule] at h; cases h

theorem both_matched {first : Rule α} {second : Rule β} {c rest : Cursor} {v : α × β} :
    both first second c = .matched v rest ↔
      ∃ mid, first c = .matched v.1 mid ∧ second mid = .matched v.2 rest := by
  rw [both, Outcome.bind_matched]
  constructor
  · rintro ⟨a, mid, hfirst, h⟩
    obtain ⟨b, hsecond, rfl⟩ := Outcome.map_matched.mp h
    exact ⟨mid, hfirst, hsecond⟩
  · rintro ⟨mid, hfirst, hsecond⟩
    exact ⟨v.1, mid, hfirst, Outcome.map_matched.mpr ⟨v.2, hsecond, rfl⟩⟩

theorem map_matched {rule : Rule α} {f : α → β} {c rest : Cursor} {v : β} :
    map f rule c = .matched v rest ↔ ∃ a, rule c = .matched a rest ∧ f a = v :=
  Outcome.map_matched

theorem terminated_matched {rule : Rule α} {after : Rule β} {c rest : Cursor} {v : α} :
    terminated rule after c = .matched v rest ↔
      ∃ mid w, rule c = .matched v mid ∧ after mid = .matched w rest := by
  constructor
  · intro h
    obtain ⟨⟨_, w⟩, hboth, rfl⟩ := map_matched.mp h
    obtain ⟨mid, hrule, hafter⟩ := both_matched.mp hboth
    exact ⟨mid, w, hrule, hafter⟩
  · rintro ⟨mid, w, hrule, hafter⟩
    exact map_matched.mpr ⟨(v, w), both_matched.mpr ⟨mid, hrule, hafter⟩, rfl⟩

/-- What is repeated: nothing, or a match and further ones behind it. -/
theorem manyUpTo_matched {rule : Rule α} {bound : Nat} {c rest : Cursor} {xs : List α}
    (h : manyUpTo rule bound c = .matched xs rest) :
    xs = [] ∧ rest = c ∨ ∃ n x mid ys, bound = n + 1 ∧ rule c = .matched x mid ∧
      manyUpTo rule n mid = .matched ys rest ∧ xs = x :: ys := by
  unfold manyUpTo at h
  split at h
  · cases h
  · cases h
    exact .inl ⟨rfl, rfl⟩
  · rename_i x mid hx
    split at h
    · cases h
      exact .inl ⟨rfl, rfl⟩
    · cases bound with
      | zero =>
        cases h
        exact .inl ⟨rfl, rfl⟩
      | succ n =>
        obtain ⟨ys, hys, rfl⟩ := Outcome.map_matched.mp h
        exact .inr ⟨n, x, mid, ys, rfl, hx, hys, rfl⟩

/-- What is read behind an element: nothing, or a separator and a further element. -/
theorem separatedUpTo_matched {rule : Rule α} {separator : Rule β} {context : String} {bound : Nat}
    {c rest : Cursor} {xs : List α} :
    separatedUpTo rule separator context bound c = .matched xs rest ↔
      (MissesAt separator c ∧ xs = [] ∧ rest = c) ∨
      ∃ mark next x mid, separator c = .matched mark next ∧ rule next = .matched x mid ∧
        match bound with
        | 0 => xs = [] ∧ rest = c
        | bound + 1 => ∃ ys, separatedUpTo rule separator context bound mid = .matched ys rest ∧
          x :: ys = xs := by
  constructor
  · intro h
    unfold separatedUpTo at h
    cases hmark : separator c with
    | failed place expected blamed =>
      rw [hmark] at h
      cases h
    | missed place expected =>
      rw [hmark] at h
      cases h
      exact .inl ⟨⟨_, _, hmark⟩, rfl, rfl⟩
    | matched mark next =>
      rw [hmark] at h
      obtain ⟨x, mid, hx, hmore⟩ := Outcome.bind_matched.mp h
      refine .inr ⟨mark, next, x, mid, rfl, cut_matched.mp hx, ?_⟩
      cases bound with
      | zero =>
        cases hmore
        exact ⟨rfl, rfl⟩
      | succ bound => exact Outcome.map_matched.mp hmore
  · rintro (⟨⟨place, expected, hmark⟩, rfl, rfl⟩ | ⟨mark, next, x, mid, hmark, hx, hmore⟩)
    · rw [separatedUpTo.eq_def, hmark]
    · rw [separatedUpTo.eq_def, hmark]
      refine Outcome.bind_matched.mpr ⟨x, mid, cut_matched.mpr hx, ?_⟩
      cases bound with
      | zero =>
        obtain ⟨rfl, rfl⟩ := hmore
        rfl
      | succ bound => exact Outcome.map_matched.mpr hmore

theorem literal_matched {chars : List Char} {c rest : Cursor} {t : Text}
    (h : literal chars c = .matched t rest) :
    c.startsWith chars = true ∧ t = c.next chars.length ∧ rest = c.advance chars.length := by
  unfold literal at h
  split at h
  · rename_i hstarts
    cases h
    exact ⟨hstarts, rfl, rfl⟩
  · cases h

theorem scan_matched {length? : List Char → Option Nat} {expected : String} {c rest : Cursor}
    {t : Text} (hc : c.Within) (h : scan length? expected c = .matched t rest) :
    ∃ count, length? c.ahead = some count ∧ t = c.next count ∧ rest = c.advance count := by
  unfold scan at h
  rw [Cursor.onward_eq hc.1] at h
  cases hlength : length? c.ahead with
  | none => rw [hlength] at h; cases h
  | some count =>
    rw [hlength] at h
    cases h
    exact ⟨count, rfl, rfl, rfl⟩

end Rule

/-! ## Postconditions -/

namespace Rule

/-- Every match at a cursor in its text leads further on and has the postcondition. -/
def Ensures (rule : Rule α) (post : Cursor → α → Cursor → Prop) : Prop :=
  ∀ c v rest, c.Within → rule c = .matched v rest → c.Reaches rest ∧ post c v rest

variable {rule : Rule α} {P : Cursor → α → Cursor → Prop}

theorem ensures_mono (hrule : rule.Ensures P) {post : Cursor → α → Cursor → Prop}
    (hpost : ∀ c v rest, c.Within → c.Reaches rest → P c v rest → post c v rest) :
    rule.Ensures post := by
  intro c v rest hc h
  obtain ⟨hreach, hP⟩ := hrule c v rest hc h
  exact ⟨hreach, hpost c v rest hc hreach hP⟩

theorem ensures_bind {next : α → Rule β} {Q : α → Cursor → β → Cursor → Prop}
    {post : Cursor → β → Cursor → Prop} (hrule : rule.Ensures P)
    (hnext : ∀ a, (next a).Ensures (Q a))
    (hpost : ∀ c a mid v rest, c.Reaches mid → mid.Reaches rest → P c a mid → Q a mid v rest →
      post c v rest) :
    Rule.Ensures (fun c => (rule c).bind next) post := by
  intro c v rest hc h
  obtain ⟨a, mid, ha, hv⟩ := Outcome.bind_matched.mp h
  obtain ⟨hmid, hP⟩ := hrule c a mid hc ha
  obtain ⟨hrest, hQ⟩ := hnext a mid v rest (hmid.within hc) hv
  exact ⟨hmid.trans hrest, hpost c a mid v rest hmid hrest hP hQ⟩

theorem ensures_map {f : α → β} {post : Cursor → β → Cursor → Prop}
    (hrule : rule.Ensures fun c a rest => post c (f a) rest) : (map f rule).Ensures post := by
  intro c v rest hc h
  obtain ⟨a, ha, rfl⟩ := map_matched.mp h
  exact hrule c a rest hc ha

theorem ensures_both {second : Rule β} {Q : Cursor → β → Cursor → Prop}
    {post : Cursor → α × β → Cursor → Prop} (hrule : rule.Ensures P) (hsecond : second.Ensures Q)
    (hpost : ∀ c a mid b rest, c.Reaches mid → mid.Reaches rest → P c a mid → Q mid b rest →
      post c (a, b) rest) : (both rule second).Ensures post := by
  intro c v rest hc h
  obtain ⟨mid, ha, hb⟩ := both_matched.mp h
  obtain ⟨hmid, hP⟩ := hrule c v.1 mid hc ha
  obtain ⟨hrest, hQ⟩ := hsecond mid v.2 rest (hmid.within hc) hb
  exact ⟨hmid.trans hrest, hpost c v.1 mid v.2 rest hmid hrest hP hQ⟩

theorem ensures_terminated {after : Rule β} {Q : Cursor → β → Cursor → Prop}
    {post : Cursor → α → Cursor → Prop} (hrule : rule.Ensures P) (hafter : after.Ensures Q)
    (hpost : ∀ c a mid b rest, c.Reaches mid → mid.Reaches rest → P c a mid → Q mid b rest →
      post c a rest) : (terminated rule after).Ensures post :=
  ensures_map (ensures_both hrule hafter hpost)

theorem ensures_preceded {before : Rule β} {Q : Cursor → β → Cursor → Prop}
    {post : Cursor → α → Cursor → Prop} (hbefore : before.Ensures Q) (hrule : rule.Ensures P)
    (hpost : ∀ c b mid a rest, c.Reaches mid → mid.Reaches rest → Q c b mid → P mid a rest →
      post c a rest) : (preceded before rule).Ensures post :=
  ensures_map (ensures_both hbefore hrule hpost)

theorem ensures_choice {rules : List (Rule α)} {expected : Option String}
    (hrules : ∀ r ∈ rules, Ensures r P) : (choice rules expected).Ensures P := by
  induction rules with
  | nil =>
    intro c v rest _ h
    cases h
  | cons rule rules ih =>
    intro c v rest hc h
    rcases choice_cons_matched h with hfirst | ⟨-, hlater⟩
    · exact hrules rule List.mem_cons_self c v rest hc hfirst
    · exact ih (fun r hr => hrules r (List.mem_cons_of_mem _ hr)) c v rest hc hlater

theorem ensures_cut {context : String} (hrule : rule.Ensures P) : (cut rule context).Ensures P :=
  fun c v rest hc h => hrule c v rest hc (cut_matched.mp h)

theorem ensures_opt {post : Cursor → Option α → Cursor → Prop}
    (hrule : rule.Ensures fun c a rest => post c (some a) rest)
    (hnone : ∀ c, post c none c) : (opt rule).Ensures post := by
  intro c v rest hc h
  rcases opt_matched h with ⟨a, rfl, ha⟩ | ⟨rfl, rfl, -⟩
  · exact hrule c a rest hc ha
  · exact ⟨.refl rest, hnone rest⟩

theorem ensures_peek {post : Cursor → α → Cursor → Prop} (hpost : ∀ c v, post c v c) :
    (peek rule).Ensures post := by
  intro c v rest _ h
  obtain ⟨rfl, -⟩ := peek_matched h
  exact ⟨.refl rest, hpost rest v⟩

theorem ensures_manyUpTo {post : Cursor → List α → Cursor → Prop} (hrule : rule.Ensures P)
    (hnil : ∀ c, post c [] c)
    (hcons : ∀ c a mid as rest, c.Reaches mid → mid.Reaches rest → P c a mid → post mid as rest →
      post c (a :: as) rest) (bound : Nat) : (manyUpTo rule bound).Ensures post := by
  induction bound using Nat.strongRecOn with
  | ind bound ih =>
    intro c v rest hc h
    rcases manyUpTo_matched h with ⟨rfl, rfl⟩ | ⟨n, a, mid, as, rfl, ha, has, rfl⟩
    · exact ⟨.refl rest, hnil rest⟩
    · obtain ⟨hmid, hP⟩ := hrule c a mid hc ha
      obtain ⟨hrest, hpost⟩ := ih n (Nat.lt_succ_self n) mid as rest (hmid.within hc) has
      exact ⟨hmid.trans hrest, hcons c a mid as rest hmid hrest hP hpost⟩

theorem ensures_many {post : Cursor → List α → Cursor → Prop} (hrule : rule.Ensures P)
    (hnil : ∀ c, post c [] c)
    (hcons : ∀ c a mid as rest, c.Reaches mid → mid.Reaches rest → P c a mid → post mid as rest →
      post c (a :: as) rest) : (many rule).Ensures post :=
  fun c => ensures_manyUpTo hrule hnil hcons c.room c

theorem ensures_many1 {Q : Cursor → List α → Cursor → Prop}
    {post : Cursor → OneOrMore α → Cursor → Prop} (hrule : rule.Ensures P)
    (hnil : ∀ c, Q c [] c)
    (hcons : ∀ c a mid as rest, c.Reaches mid → mid.Reaches rest → P c a mid → Q mid as rest →
      Q c (a :: as) rest)
    (hpost : ∀ c a mid as rest, c.Reaches mid → mid.Reaches rest → P c a mid → Q mid as rest →
      post c ⟨a, as⟩ rest) : (many1 rule).Ensures post := by
  intro c v rest hc h
  obtain ⟨first, mid, hfirst, h⟩ := Outcome.bind_matched.mp h
  obtain ⟨others, hothers, rfl⟩ := Outcome.map_matched.mp h
  obtain ⟨hmid, hP⟩ := hrule c first mid hc hfirst
  obtain ⟨hrest, hQ⟩ := ensures_many hrule hnil hcons mid others rest (hmid.within hc) hothers
  exact ⟨hmid.trans hrest, hpost c first mid others rest hmid hrest hP hQ⟩

theorem ensures_separatedUpTo {separator : Rule β} {context : String}
    {S : Cursor → β → Cursor → Prop} {Q : Cursor → List α → Cursor → Prop}
    (hrule : rule.Ensures P) (hseparator : separator.Ensures S) (hnil : ∀ c, Q c [] c)
    (hcons : ∀ c b mid a stop as rest, c.Reaches mid → mid.Reaches stop → stop.Reaches rest →
      S c b mid → P mid a stop → Q stop as rest → Q c (a :: as) rest) (bound : Nat) :
    (separatedUpTo rule separator context bound).Ensures Q := by
  induction bound with
  | zero =>
    intro c v rest hc h
    obtain ⟨-, rfl, rfl⟩ | ⟨-, -, -, -, -, -, rfl, rfl⟩ := separatedUpTo_matched.mp h
    · exact ⟨.refl rest, hnil rest⟩
    · exact ⟨.refl rest, hnil rest⟩
  | succ bound ih =>
    intro c v rest hc h
    obtain ⟨-, rfl, rfl⟩ | ⟨b, mid, a, stop, hb, ha, as, has, rfl⟩ := separatedUpTo_matched.mp h
    · exact ⟨.refl rest, hnil rest⟩
    · obtain ⟨hmid, hS⟩ := hseparator c b mid hc hb
      obtain ⟨hstop, hP⟩ := hrule mid a stop (hmid.within hc) ha
      obtain ⟨hrest, hQ⟩ := ih stop as rest (hstop.within (hmid.within hc)) has
      exact ⟨(hmid.trans hstop).trans hrest,
        hcons c b mid a stop as rest hmid hstop hrest hS hP hQ⟩

theorem ensures_separated1 {separator : Rule β} {context : String}
    {S : Cursor → β → Cursor → Prop} {Q : Cursor → List α → Cursor → Prop}
    {post : Cursor → OneOrMore α → Cursor → Prop}
    (hrule : rule.Ensures P) (hseparator : separator.Ensures S) (hnil : ∀ c, Q c [] c)
    (hcons : ∀ c b mid a stop as rest, c.Reaches mid → mid.Reaches stop → stop.Reaches rest →
      S c b mid → P mid a stop → Q stop as rest → Q c (a :: as) rest)
    (hpost : ∀ c a mid as rest, c.Reaches mid → mid.Reaches rest → P c a mid → Q mid as rest →
      post c ⟨a, as⟩ rest) :
    (separated1 rule separator context).Ensures post := by
  intro c v rest hc h
  obtain ⟨first, mid, hfirst, h⟩ := Outcome.bind_matched.mp h
  obtain ⟨others, hothers, rfl⟩ := Outcome.map_matched.mp h
  obtain ⟨hmid, hP⟩ := hrule c first mid hc hfirst
  obtain ⟨hrest, hQ⟩ :=
    ensures_separatedUpTo hrule hseparator hnil hcons mid.room mid others rest (hmid.within hc)
      hothers
  exact ⟨hmid.trans hrest, hpost c first mid others rest hmid hrest hP hQ⟩

theorem ensures_literal {chars : List Char} {post : Cursor → Text → Cursor → Prop}
    (hne : chars ≠ [])
    (hpost : ∀ c rest, c.Within → c.Reads chars rest → post c (c.next chars.length) rest) :
    (literal chars).Ensures post := by
  intro c v rest hc h
  obtain ⟨hstarts, rfl, rfl⟩ := literal_matched h
  obtain ⟨k, hk⟩ := (Cursor.startsWith_iff hne).mp hstarts
  have hreads := hc.reads hk
  exact ⟨⟨chars, hreads⟩, hpost c _ hc hreads⟩

end Rule

/-! ## One match after the other -/

/-- Each value is read from where the one before it ends. -/
inductive ReadsAll (P : Cursor → α → Cursor → Prop) : Cursor → List α → Cursor → Prop
  | nil {c : Cursor} : ReadsAll P c [] c
  | cons {c mid rest : Cursor} {a : α} {as : List α} (hfirst : P c a mid)
    (hothers : ReadsAll P mid as rest) : ReadsAll P c (a :: as) rest

theorem ReadsAll.forall {P : Cursor → α → Cursor → Prop} {p : α → Prop}
    (hP : ∀ c a rest, P c a rest → p a) {c rest : Cursor} {as : List α}
    (h : ReadsAll P c as rest) : ∀ a ∈ as, p a := by
  induction h with
  | nil => simp
  | cons hfirst _ ih => exact List.forall_mem_cons.mpr ⟨hP _ _ _ hfirst, ih⟩

theorem ReadsAll.mono {P Q : Cursor → α → Cursor → Prop}
    (hPQ : ∀ c a rest, P c a rest → Q c a rest) {c rest : Cursor} {as : List α}
    (h : ReadsAll P c as rest) : ReadsAll Q c as rest := by
  induction h with
  | nil => exact .nil
  | cons hfirst _ ih => exact .cons (hPQ _ _ _ hfirst) ih

namespace Rule

variable {rule : Rule α} {P : Cursor → α → Cursor → Prop}

theorem many_ensures (hrule : rule.Ensures P) : (many rule).Ensures (ReadsAll P) :=
  ensures_many hrule (fun _ => .nil) fun _ _ _ _ _ _ _ => .cons

theorem many1_ensures (hrule : rule.Ensures P) :
    (many1 rule).Ensures fun c as rest => ReadsAll P c as.toList rest :=
  ensures_many1 hrule (fun _ => .nil) (fun _ _ _ _ _ _ _ => .cons) fun _ _ _ _ _ _ _ => .cons

end Rule

end LessSyntax
