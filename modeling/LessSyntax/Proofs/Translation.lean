import LessSyntax.Proofs.Reading
import LessSyntax.Proofs.Shift

/-!
# Reading behind another text

The same text is read once by itself and once where other characters stand before it and more
blocks and calls are open. No rule looks behind its cursor or counts places from the start: the
second run does what the first one does, further on. This includes the places that a miss or a
failure names, since the miss that got furthest depends on them.

* `Cursor.behind`: the cursor at the same place of the longer text.
* `Carried`: how the outcomes of the two runs are related.
* `Rule.Carries`: the same for rules. There is one lemma for each way to combine rules:
  `carries_both`, `carries_choice`, `carries_cut`, `carries_opt`, `carries_many`,
  `carries_separated1`.
-/

namespace LessSyntax

variable {α β γ : Type} {w : List Char} {n : Int}

/-! ## Cursors -/

namespace Cursor

variable {c mid place : Cursor}

/-- The same place where `w` stands before the text and `n` more blocks and calls are open. -/
def behind (w : List Char) (n : Int) (c : Cursor) : Cursor :=
  of (w ++ c.text) (c.pos + w.length) (c.depth + n)

@[simp]
theorem text_behind (c : Cursor) : (c.behind w n).text = w ++ c.text := rfl

@[simp]
theorem depth_behind (c : Cursor) : (c.behind w n).depth = c.depth + n := rfl

@[simp]
theorem pos_behind (c : Cursor) : (c.behind w n).pos = c.pos + w.length := rfl

@[simp]
theorem size_behind (c : Cursor) : (c.behind w n).size = c.size + w.length := by
  show (w ++ c.text).length = c.size + w.length
  rw [List.length_append, c.size_eq, Nat.add_comm]

theorem ahead_behind (h : 0 ≤ c.pos) : (c.behind w n).ahead = c.ahead := by
  have hplace : fromStart (w ++ c.text).length (c.pos + w.length) = w.length + c.pos.toNat := by
    rw [fromStart_of_nonneg (by omega)]
    omega
  show (w ++ c.text).drop (fromStart (w ++ c.text).length (c.pos + w.length)) = c.ahead
  rw [hplace, ← List.drop_drop, List.drop_left, c.ahead_eq, fromStart_of_nonneg h]

theorem Within.behind (hc : c.Within) : (c.behind w n).Within := by
  obtain ⟨hstart, hstop⟩ := hc
  rw [Within, pos_behind, size_behind]
  omega

@[simp]
theorem advance_behind (c : Cursor) (count : Nat) :
    (c.behind w n).advance count = (c.advance count).behind w n := by
  refine ext_pos ?_ ?_ ?_
  · simp
  · rw [pos_advance, pos_behind, pos_behind, pos_advance]
    omega
  · simp

@[simp]
theorem moveTo_behind (c : Cursor) (pos : Int) :
    (c.behind w n).moveTo (pos + w.length) = (c.moveTo pos).behind w n :=
  ext_pos rfl rfl rfl

@[simp]
theorem withDepth_behind (c : Cursor) (depth : Int) :
    (c.behind w n).withDepth (depth + n) = (c.withDepth depth).behind w n :=
  ext_pos rfl rfl rfl

@[simp]
theorem nested_behind (c : Cursor) : (c.behind w n).nested = c.nested.behind w n := by
  refine ext_pos rfl rfl ?_
  show c.depth + n + 1 = c.depth + 1 + n
  omega

@[simp]
theorem atEnd_behind (c : Cursor) : (c.behind w n).atEnd = c.atEnd := by
  simp only [atEnd, pos_behind, size_behind, decide_eq_decide]
  omega

@[simp]
theorem room_behind (c : Cursor) : (c.behind w n).room = c.room := by
  simp only [room, pos_behind, size_behind]
  omega

theorem onward_behind (h : 0 ≤ c.pos) : (c.behind w n).onward = c.onward := by
  rw [onward_eq h, onward_eq (by rw [pos_behind]; omega), ahead_behind h]

theorem startsWith_behind (h : 0 ≤ c.pos) (chars : List Char) :
    (c.behind w n).startsWith chars = c.startsWith chars := by
  have hin : (c.behind w n).inText = c.inText := by
    simp only [inText, pos_behind, size_behind, decide_eq_decide]
    omega
  rw [startsWith, startsWith, ahead_behind h, hin]

theorem next_behind (h : 0 ≤ c.pos) (count : Nat) :
    (c.behind w n).next count = (c.next count).shift w.length := by
  have hchars := chars_next (c := c.behind w n) (by rw [pos_behind]; omega) count
  rw [ahead_behind h, ← chars_next h count] at hchars
  have hspan : (⟨c.pos + w.length, c.pos + w.length + count⟩ : Span)
      = ⟨c.pos + w.length, c.pos + count + w.length⟩ := by
    rw [Int.add_right_comm]
  show Text.mk ((c.behind w n).next count).chars (some ⟨c.pos + w.length, c.pos + w.length + count⟩)
    = Text.mk (c.next count).chars (some ⟨c.pos + w.length, c.pos + count + w.length⟩)
  rw [hchars, hspan]

theorem peek_behind (h : 0 ≤ c.pos) (count : Nat) : (c.behind w n).peek count = c.peek count := by
  rw [peek, next_behind h]
  rfl

/-- The text behind `w` is read where `w` has been read. -/
theorem ofText_append (w cs : List Char) :
    (ofText (w ++ cs)).advance w.length = (ofText cs).behind w 0 := by
  refine ext_pos (text_advance _ _) (pos_advance _ _) ?_
  rw [depth_advance]
  rfl

/-- The place stands in the same text, no further to the front. -/
structure Precedes (c place : Cursor) : Prop where
  text : place.text = c.text
  pos_le : c.pos ≤ place.pos
  le_size : place.pos ≤ place.size

theorem Within.precedes_self (hc : c.Within) : c.Precedes c := ⟨rfl, Int.le_refl _, hc.2⟩

theorem Precedes.from (h : mid.Precedes place) (hreach : c.Reaches mid) : c.Precedes place :=
  ⟨h.text.trans hreach.text, Int.le_trans hreach.pos_le h.pos_le, h.le_size⟩

theorem Reaches.precedes (h : c.Reaches place) (hc : c.Within) : c.Precedes place :=
  ⟨h.text, h.pos_le, (h.within hc).2⟩

end Cursor

/-! ## Outcomes -/

/-- The outcomes of a rule at a cursor and at the same place behind another text. Values are
moved by `move`. -/
inductive Carried (w : List Char) (n : Int) (move : α → α) (c : Cursor) :
    Outcome α → Outcome α → Prop
  | matched {v : α} {rest : Cursor} (hreach : c.Reaches rest) :
    Carried w n move c (.matched v rest) (.matched (move v) (rest.behind w n))
  | missed {place : Cursor} {expected : String} (hplace : c.Precedes place) :
    Carried w n move c (.missed place expected) (.missed (place.behind w n) expected)
  | failed {place : Cursor} {expected rule : String} (hplace : c.Precedes place) :
    Carried w n move c (.failed place expected rule) (.failed (place.behind w n) expected rule)

section

variable {move : α → α} {move' : β → β} {c mid : Cursor} {a a' b b' : Outcome α}

/-- What holds further on holds from here. -/
theorem Carried.from (hreach : c.Reaches mid) (h : Carried w n move mid a b) :
    Carried w n move c a b := by
  cases h with
  | matched hreach' => exact .matched (hreach.trans hreach')
  | missed hplace => exact .missed (hplace.from hreach)
  | failed hplace => exact .failed (hplace.from hreach)

theorem Carried.bind {next next' : α → Cursor → Outcome β} (h : Carried w n move c a b)
    (hnext : ∀ v rest, c.Reaches rest →
      Carried w n move' rest (next v rest) (next' (move v) (rest.behind w n))) :
    Carried w n move' c (a.bind next) (b.bind next') := by
  cases h with
  | matched hreach => exact (hnext _ _ hreach).from hreach
  | missed hplace => exact .missed hplace
  | failed hplace => exact .failed hplace

theorem Carried.map {f f' : α → β} (h : Carried w n move c a b)
    (hf : ∀ v, f' (move v) = move' (f v)) : Carried w n move' c (a.map f) (b.map f') := by
  refine h.bind fun v rest _ => ?_
  rw [hf]
  exact .matched (.refl rest)

/-- What is read in a block or a call is read around it. -/
theorem carried_of_nested {f f' : α → β} (hreach : c.Reaches mid)
    (h : Carried w n move mid.nested a b) (hf : ∀ v, f' (move v) = move' (f v)) :
    Carried w n move' c (a.bind fun v stop => .matched (f v) (stop.withDepth c.depth))
      (b.bind fun v stop => .matched (f' v) (stop.withDepth (c.behind w n).depth)) := by
  have hplace : ∀ {place : Cursor}, mid.nested.Precedes place → c.Precedes place := by
    intro place h
    have hmid : mid.Precedes place := ⟨h.text, h.pos_le, h.le_size⟩
    exact hmid.from hreach
  cases h with
  | missed h => exact .missed (hplace h)
  | failed h => exact .failed (hplace h)
  | @matched v stop hinside =>
    have hstop := hinside.of_nested
    rw [hreach.depth] at hstop
    show Carried w n move' c (.matched (f v) (stop.withDepth c.depth))
      (.matched (f' (move v)) ((stop.behind w n).withDepth (c.depth + n)))
    rw [hf, Cursor.withDepth_behind]
    exact .matched (hreach.trans hstop)

theorem Carried.orElse {second second' : Unit → Outcome α} (h : Carried w n move c a b)
    (hsecond : Carried w n move c (second ()) (second' ())) :
    Carried w n move c (a.orElse second) (b.orElse second') := by
  cases h with
  | matched hreach => exact .matched hreach
  | failed hplace => exact .failed hplace
  | @missed place expected hplace =>
    unfold Outcome.orElse
    dsimp only
    generalize second () = o at hsecond ⊢
    generalize second' () = o' at hsecond ⊢
    cases hsecond with
    | matched hreach => exact .matched hreach
    | failed hplace' => exact .failed hplace'
    | @missed place' expected' hplace' =>
      dsimp only
      simp only [Cursor.pos_behind, Int.add_lt_add_iff_right]
      split
      · exact .missed hplace'
      · exact .missed hplace

theorem Carried.relabel (h : Carried w n move c a b) (expected : Option String) :
    Carried w n move c (a.relabel expected) (b.relabel expected) := by
  cases h with
  | matched hreach => exact .matched hreach
  | failed hplace => exact .failed hplace
  | missed hplace => cases expected <;> exact .missed hplace

end

/-! ## Rules -/

namespace Rule

variable {move : α → α} {move' : β → β} {rule : Rule α}

/-- The rule does at the same place behind another text what it does at a cursor. -/
def Carries (w : List Char) (n : Int) (move : α → α) (rule : Rule α) : Prop :=
  ∀ c : Cursor, c.Within → Carried w n move c (rule c) (rule (c.behind w n))

theorem carries_bind {next : α → Rule β} (hrule : rule.Carries w n move)
    (hnext : ∀ a rest, rest.Within →
      Carried w n move' rest (next a rest) (next (move a) (rest.behind w n))) :
    Carries w n move' fun c => (rule c).bind next :=
  fun c hc => (hrule c hc).bind fun a rest hreach => hnext a rest (hreach.within hc)

theorem carries_map {f : α → β} (hrule : rule.Carries w n move)
    (hf : ∀ v, f (move v) = move' (f v)) : (map f rule).Carries w n move' :=
  fun c hc => (hrule c hc).map hf

theorem carries_both {second : Rule β} (hrule : rule.Carries w n move)
    (hsecond : second.Carries w n move') :
    (both rule second).Carries w n (Prod.map move move') :=
  carries_bind hrule fun _ rest hrest => (hsecond rest hrest).map fun _ => rfl

theorem carries_terminated {after : Rule β} (hrule : rule.Carries w n move)
    (hafter : after.Carries w n move') : (terminated rule after).Carries w n move :=
  carries_map (carries_both hrule hafter) fun _ => rfl

theorem carries_preceded {before : Rule β} (hbefore : before.Carries w n move')
    (hrule : rule.Carries w n move) : (preceded before rule).Carries w n move :=
  carries_map (carries_both hbefore hrule) fun _ => rfl

theorem carries_firstOf {rules : List (Rule α)} (hrule : rule.Carries w n move)
    (hrules : ∀ r ∈ rules, Carries w n move r) : (firstOf rule rules).Carries w n move := by
  induction rules generalizing rule with
  | nil => exact hrule
  | cons next rules ih =>
    have hothers : (firstOf next rules).Carries w n move :=
      ih (hrules next List.mem_cons_self) fun r hr => hrules r (List.mem_cons_of_mem _ hr)
    exact fun c hc => (hrule c hc).orElse (hothers c hc)

theorem carries_choice {rules : List (Rule α)} {expected : Option String}
    (hrules : ∀ r ∈ rules, Carries w n move r) : (choice rules expected).Carries w n move := by
  cases rules with
  | nil => exact fun c hc => .missed hc.precedes_self
  | cons rule rules =>
    have hfirst : (firstOf rule rules).Carries w n move :=
      carries_firstOf (hrules rule List.mem_cons_self) fun r hr =>
        hrules r (List.mem_cons_of_mem _ hr)
    exact fun c hc => (hfirst c hc).relabel expected

theorem carries_cut {context : String} (hrule : rule.Carries w n move) :
    (cut rule context).Carries w n move := by
  intro c hc
  have h := hrule c hc
  unfold cut
  generalize rule c = a at h ⊢
  generalize rule (c.behind w n) = b at h ⊢
  cases h with
  | matched hreach => exact .matched hreach
  | missed hplace => exact .failed hplace
  | failed hplace => exact .failed hplace

theorem carries_opt (hrule : rule.Carries w n move) :
    (opt rule).Carries w n (Option.map move) := by
  intro c hc
  have h := hrule c hc
  unfold opt
  generalize rule c = a at h ⊢
  generalize rule (c.behind w n) = b at h ⊢
  cases h with
  | matched hreach => exact .matched hreach
  | missed _ => exact .matched (.refl c)
  | failed hplace => exact .failed hplace

theorem carries_peek (hrule : rule.Carries w n move) : (peek rule).Carries w n move := by
  intro c hc
  have h := hrule c hc
  unfold peek
  generalize rule c = a at h ⊢
  generalize rule (c.behind w n) = b at h ⊢
  cases h with
  | matched _ => exact .matched (.refl c)
  | missed hplace => exact .missed hplace
  | failed hplace => exact .failed hplace

/-! ## Repetition -/

theorem carries_manyUpTo (hrule : rule.Carries w n move) (bound : Nat) :
    (manyUpTo rule bound).Carries w n (List.map move) := by
  induction bound using Nat.strongRecOn with
  | ind bound ih =>
    intro c hc
    have h := hrule c hc
    unfold manyUpTo
    generalize rule c = a at h ⊢
    generalize rule (c.behind w n) = b at h ⊢
    cases h with
    | failed hplace => exact .failed hplace
    | missed _ => exact .matched (.refl c)
    | @matched v rest hreach =>
      have hpos : (rest.behind w n).pos = (c.behind w n).pos ↔ rest.pos = c.pos := by
        rw [Cursor.pos_behind, Cursor.pos_behind]
        omega
      simp only [hpos]
      split
      · exact .matched (.refl c)
      · cases bound with
        | zero => exact .matched (.refl c)
        | succ bound =>
          exact .from hreach
            ((ih bound (Nat.lt_succ_self bound) rest (hreach.within hc)).map fun _ => rfl)

theorem carries_many (hrule : rule.Carries w n move) :
    (many rule).Carries w n (List.map move) := by
  intro c hc
  unfold many
  rw [Cursor.room_behind]
  exact carries_manyUpTo hrule c.room c hc

theorem carries_many1 (hrule : rule.Carries w n move) :
    (many1 rule).Carries w n (OneOrMore.map move) :=
  carries_bind hrule fun _ rest hrest => (carries_many hrule rest hrest).map fun _ => rfl

theorem carries_separatedUpTo {separator : Rule β} {context : String}
    (hrule : rule.Carries w n move) (hseparator : separator.Carries w n move') (bound : Nat) :
    (separatedUpTo rule separator context bound).Carries w n (List.map move) := by
  induction bound using Nat.strongRecOn with
  | ind bound ih =>
    intro c hc
    have h := hseparator c hc
    unfold separatedUpTo
    generalize separator c = a at h ⊢
    generalize separator (c.behind w n) = b at h ⊢
    cases h with
    | failed hplace => exact .failed hplace
    | missed _ => exact .matched (.refl c)
    | @matched v next hreach =>
      have hnext := hreach.within hc
      have hvalue : Carried w n move next (cut rule context next)
          (cut rule context (next.behind w n)) := carries_cut hrule next hnext
      cases bound with
      | zero =>
        dsimp only
        generalize cut rule context next = a at hvalue ⊢
        generalize cut rule context (next.behind w n) = b at hvalue ⊢
        cases hvalue with
        | failed hplace => exact .failed (hplace.from hreach)
        | missed hplace => exact .missed (hplace.from hreach)
        | matched _ => exact .matched (.refl c)
      | succ bound =>
        refine (hvalue.bind fun v rest hreach' => ?_).from hreach
        have hmore := ih bound (Nat.lt_succ_self bound) rest (hreach'.within hnext)
        exact hmore.map fun _ => rfl

theorem carries_separated1 {separator : Rule β} {context : String}
    (hrule : rule.Carries w n move) (hseparator : separator.Carries w n move') :
    (separated1 rule separator context).Carries w n (OneOrMore.map move) := by
  refine carries_bind hrule fun _ rest hrest => ?_
  rw [Cursor.room_behind]
  exact (carries_separatedUpTo hrule hseparator rest.room rest hrest).map fun _ => rfl

/-! ## Leaves -/

theorem carries_endOf (expected : String) : (endOf expected).Carries w n id := by
  intro c hc
  unfold endOf
  rw [Cursor.atEnd_behind]
  split
  · exact .matched (.refl c)
  · exact .missed hc.precedes_self

theorem carries_literal {chars : List Char} (hne : chars ≠ []) :
    (literal chars).Carries w n (Text.shift w.length) := by
  intro c hc
  unfold literal
  rw [Cursor.startsWith_behind hc.1, Cursor.next_behind hc.1, Cursor.advance_behind]
  split
  · rename_i hstarts
    obtain ⟨k, hk⟩ := (Cursor.startsWith_iff hne).mp hstarts
    exact .matched ⟨_, hc.reads hk⟩
  · exact .missed hc.precedes_self

theorem carries_scan {length? : List Char → Option Nat} {expected : String}
    (hbound : ∀ {cs count}, length? cs = some count → count ≤ cs.length) :
    (scan length? expected).Carries w n (Text.shift w.length) := by
  intro c hc
  unfold scan
  rw [Cursor.onward_behind hc.1, Cursor.onward_eq hc.1]
  cases hlength : length? c.ahead with
  | none => exact .missed hc.precedes_self
  | some count =>
    dsimp only
    rw [Cursor.next_behind hc.1, Cursor.advance_behind]
    obtain ⟨cs, -, hreads⟩ := hc.reads_take (hbound hlength)
    exact .matched ⟨cs, hreads⟩

end Rule

end LessSyntax
