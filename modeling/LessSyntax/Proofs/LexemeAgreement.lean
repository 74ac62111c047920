import LessSyntax.Proofs.CommonBeginning
import LessSyntax.Proofs.Lexeme.StringLiteral
import LessSyntax.Proofs.Lexeme.Url

/-!
# Lexemes at the end of the common beginning

What may stand behind the common beginning of two texts belongs to no name, number, colour or
address. A lexeme that is read from the same place of both texts is therefore read alike. Only a
string or an address may run on; it then reaches a newline, or the end of its text, and fails.

* `agrees_scan`, `agrees_literal`: measured lexemes and given characters.
* `literal_behindItem`: a semicolon or a brace, which may stand behind the common beginning.
* `number_agrees`, `color_agrees`, `url_agrees`, `quotedString_agrees`: the other lexemes.
-/

namespace LessSyntax.Grammar

open Rule Cursor

variable {lineComments : Bool} {tails : Tails lineComments} {k l : List Char} {c c' : Cursor}

/-! ## Measures before a boundary -/

theorem takeWhile_boundary {isIn : Char → Bool} (hclass : ∀ x ∈ boundaryChars, isIn x = false)
    (hl : Boundary l) : (k ++ l).takeWhile isIn = k.takeWhile isIn := by
  induction k with
  | nil =>
    cases l with
    | nil => rfl
    | cons x l => simp [hclass x (hl x rfl)]
  | cons x k ih =>
    rw [List.cons_append, List.takeWhile_cons, List.takeWhile_cons, ih]

theorem Boundary.take (hl : Boundary l) (count : Nat) : Boundary (l.take count) := by
  intro x hx
  refine hl x ?_
  rw [List.head?_take] at hx
  split at hx
  · cases hx
  · exact hx

theorem hyphenCount_boundary (hl : Boundary l) : hyphenCount (k ++ l) = hyphenCount k := by
  unfold hyphenCount
  rw [List.take_append, takeWhile_boundary (apart_of_all rfl) (hl.take _)]

theorem nameLength?_boundary (hl : Boundary l) : nameLength? (k ++ l) = nameLength? k := by
  have hle : hyphenCount k ≤ k.length :=
    Nat.le_trans (List.takeWhile_sublist _).length_le (List.length_take_le' 2 k)
  have hstart : ∀ x ∈ l.head?, isNameStart x = false := hl.stops (apart_of_all rfl)
  unfold nameLength?
  rw [hyphenCount_boundary hl, List.drop_append_of_le_length hle]
  cases k.drop (hyphenCount k) with
  | nil =>
    cases l with
    | nil => rfl
    | cons x l => simp [hstart x rfl]
  | cons x m =>
    simp only [List.cons_append]
    rw [takeWhile_boundary isNameChar_boundary hl]

theorem numberLength?_boundary (hl : Boundary l) : numberLength? (k ++ l) = numberLength? k := by
  by_cases hk : k = []
  · subst hk
    exact (numberLength?_none hl.numberStop).trans (numberLength?_none numberStop_nil).symm
  · have h := numberLength?_tail (k := []) hk hl.numberStop fun count hcount => by
      simpa using (numberLength?_bounds hcount).2
    simpa using h

theorem unitLength_boundary (hl : Boundary l) : unitLength (k ++ l) = unitLength k := by
  cases k with
  | nil => exact unitLength_append (.inr (by simp)) hl
  | cons x k =>
    rw [List.cons_append, unitLength, unitLength, ← List.cons_append,
      takeWhile_boundary isLetter_boundary hl]

theorem nameGoesOn_boundary_append (hl : Boundary l) :
    nameGoesOn ((k ++ l).take 1) = nameGoesOn (k.take 1) := by
  cases k with
  | nil => exact nameGoesOn_take (hl.stops isNameChar_boundary)
  | cons x k => rfl

end LessSyntax.Grammar

namespace LessSyntax.Cursor

open Grammar Rule

variable {lineComments : Bool} {tails : Tails lineComments} {k l : List Char} {c c' : Cursor}

/-! ## The cursors at the same place of both texts -/

theorem Abreast.matched (h : Abreast tails k c c') {count : Nat} (hcount : count ≤ k.length) :
    Agree False (Same (Alongside tails)) (.matched (c.next count) (c.advance count))
      (.matched (c'.next count) (c'.advance count)) :=
  .matched ⟨(h.next hcount).symm, _, h.advance hcount⟩

/-- Characters that do not stand behind the common beginning stand within it. -/
theorem startsWith_iff_begins {chars : List Char} (hne : chars ≠ []) (hahead : c.ahead = k ++ l)
    (hl : ∀ x ∈ l.head?, x ∈ Tails.marks) (hapart : ∀ x ∈ Tails.marks, x ∉ chars) :
    c.startsWith chars = true ↔ chars <+: k := by
  rw [startsWith_iff hne, hahead]
  constructor
  · rintro ⟨m, hm⟩
    exact prefix_of_append (fun x hx => hapart x (hl x hx)) ⟨m, hm.symm⟩
  · rintro ⟨m, rfl⟩
    exact ⟨m ++ l, List.append_assoc chars m l⟩

section

variable {chars : List Char} (hne : chars ≠ []) (hapart : ∀ x ∈ Tails.marks, x ∉ chars)
include hne hapart

theorem Abreast.startsWith (h : Abreast tails k c c') :
    c'.startsWith chars = c.startsWith chars := by
  rw [Bool.eq_iff_iff, startsWith_iff_begins hne h.ahead tails.head?_first hapart,
    startsWith_iff_begins hne h.ahead' tails.head?_second hapart]

theorem Abreast.length_le (h : Abreast tails k c c') (hstarts : c.startsWith chars = true) :
    chars.length ≤ k.length :=
  ((startsWith_iff_begins hne h.ahead tails.head?_first hapart).mp hstarts).length_le

end

theorem startsWith_one {x : Char} (c : Cursor) : c.startsWith [x] = (c.ahead.head? == some x) := by
  rw [Bool.eq_iff_iff, startsWith_iff (by simp), beq_iff_eq, List.head?_eq_some_iff]
  rfl

/-- The end of an item behind the common beginning. -/
theorem Abreast.mark_matched {mark : Char} {others : List Char} (h : Abreast tails [] c c')
    (hjoins : tails.Joins mark) (hsecond : tails.second = mark :: others) :
    Agree False (Same (Past tails)) (.matched (c.next 1) (c.advance 1))
      (.matched (c'.next 1) (c'.advance 1)) := by
  have hahead : c.ahead = [mark] := by rw [h.ahead, hjoins.first, List.nil_append]
  have hahead' : c'.ahead = mark :: others := by rw [h.ahead', hsecond, List.nil_append]
  refine .matched ⟨?_, ⟨?_, ?_, ?_, ?_, mark, hjoins, ?_⟩⟩
  · have hnext := next_eq h.within 1
    have hnext' := next_eq h.within' 1
    rw [hahead] at hnext
    rw [hahead', h.pos] at hnext'
    exact hnext.trans hnext'.symm
  · exact (h.within.reads_one hahead).within h.within
  · exact (h.within'.reads_one hahead').within h.within'
  · rw [pos_advance, pos_advance, h.pos]
  · exact h.within.ahead_advance_one hahead
  · rw [hsecond, h.within'.ahead_advance_one hahead']

theorem takeWhile_append_left {isIn : Char → Bool} (h : k.dropWhile isIn ≠ []) (l : List Char) :
    (k ++ l).takeWhile isIn = k.takeWhile isIn := by
  induction k with
  | nil => exact absurd rfl h
  | cons x k ih =>
    rw [List.dropWhile_cons] at h
    rw [List.cons_append, List.takeWhile_cons, List.takeWhile_cons]
    split
    · rename_i hx
      rw [if_pos hx] at h
      rw [ih h]
    · rfl

theorem takeWhile_append_right {isIn : Char → Bool} (h : k.dropWhile isIn = []) (l : List Char) :
    (k ++ l).takeWhile isIn = k ++ l.takeWhile isIn := by
  induction k with
  | nil => rfl
  | cons x k ih =>
    rw [List.dropWhile_cons] at h
    split at h
    · rename_i hx
      rw [List.cons_append, List.takeWhile_cons, if_pos hx, ih h, List.cons_append]
    · cases h

/-- The characters of a class that stand at the same place of both texts are the same, unless those
of the first text reach over the common beginning. -/
theorem Abreast.skip (h : Abreast tails k c c') (isIn : Char → Bool) :
    (∃ x m, c'.ahead.takeWhile isIn = c.ahead.takeWhile isIn ∧
      (c.ahead.takeWhile isIn).length ≤ k.length ∧
      Abreast tails (x :: m) (c.advance (c.ahead.takeWhile isIn).length)
        (c'.advance (c.ahead.takeWhile isIn).length)) ∨
      (c.advance (c.ahead.takeWhile isIn).length).ahead <:+ tails.first := by
  rw [ahead_advance h.within.1, h.ahead, h.ahead']
  cases hdrop : k.dropWhile isIn with
  | nil =>
    refine .inr ?_
    rw [takeWhile_append_right hdrop, List.length_append, List.drop_append, Nat.add_sub_cancel_left,
      List.drop_of_length_le (Nat.le_add_right _ _), List.nil_append]
    exact List.drop_suffix _ _
  | cons x m =>
    have hle : (k.takeWhile isIn).length ≤ k.length := (List.takeWhile_sublist _).length_le
    have hne : k.dropWhile isIn ≠ [] := by simp [hdrop]
    rw [takeWhile_append_left hne, takeWhile_append_left hne]
    have hrest := h.advance hle
    rw [drop_takeWhile_length, hdrop] at hrest
    exact .inl ⟨x, m, rfl, hle, hrest⟩

end LessSyntax.Cursor

namespace LessSyntax.Grammar

open Rule Cursor

variable {lineComments : Bool} {tails : Tails lineComments} {k l : List Char} {c c' : Cursor}

/-! ## Measured lexemes and given characters -/

theorem agrees_scan {length? : List Char → Option Nat} {expected : String}
    (hlocal : ∀ {k l : List Char}, Boundary l → length? (k ++ l) = length? k)
    (hbound : ∀ {k : List Char} {count : Nat}, length? k = some count → count ≤ k.length) :
    (scan length? expected).Agrees False (Alongside tails) (Alongside tails) := by
  rintro c c' ⟨k, h⟩
  unfold scan
  rw [onward_eq h.within.1, onward_eq h.within'.1, h.ahead, h.ahead',
    hlocal tails.boundary_first, hlocal tails.boundary_second]
  cases hcount : length? k with
  | none => exact .missed
  | some count => exact h.matched (hbound hcount)

theorem agrees_literal {chars : List Char} (hne : chars ≠ [])
    (hapart : ∀ x ∈ Tails.marks, x ∉ chars) :
    (literal chars).Agrees False (Alongside tails) (Alongside tails) := by
  rintro c c' ⟨k, h⟩
  unfold literal
  rw [h.startsWith hne hapart]
  split
  · rename_i hstarts
    exact h.matched (h.length_le hne hapart hstarts)
  · exact .missed

theorem literal_one {x : Char} (hahead : c.ahead = x :: l) :
    literal [x] c = .matched (c.next 1) (c.advance 1) := by
  rw [literal, startsWith_one, hahead, List.head?_cons, beq_self_eq_true]
  rfl

/-- A mark behind trivia. -/
theorem symbol_one {s : Settings} {rest : Cursor} {x : Char}
    (hskip : trivia s c = .matched () rest) (hahead : rest.ahead = x :: l) :
    symbol s [x] c = .matched (rest.next 1) (rest.advance 1) := by
  rw [symbol, token, hskip]
  exact literal_one hahead

/-- A semicolon or a brace may be what stands behind the common beginning. -/
theorem literal_behindItem {x : Char} (hx : x ≠ '\n') :
    (literal [x]).Agrees False (Alike tails)
      fun c c' => Alongside tails c c' ∨ Past tails c c' := by
  rintro c c' ⟨k, h, hk⟩
  unfold literal
  rw [startsWith_one, startsWith_one, h.ahead, h.ahead']
  rcases k with _ | ⟨y, k⟩
  · cases tails with
    | closed => simpa [hx.symm] using .missed
    | opened => simpa [hx.symm] using .missed
    | dropped => exact absurd trivial (hk rfl)
    | joined mark others hmark hothers =>
      by_cases heq : mark = x
      · subst heq
        simpa using
          (h.mark_matched rfl rfl).mono (fun _ _ _ _ hK => ⟨hK.1, .inr hK.2⟩) id
      · simpa [heq] using .missed
  · by_cases hy : y = x
    · have hmatched : Agree False (Same (Alongside tails)) (.matched (c.next 1) (c.advance 1))
          (.matched (c'.next 1) (c'.advance 1)) :=
        h.matched (Nat.le_add_left 1 k.length)
      simpa [hy] using hmatched.mono (fun _ _ _ _ hK => ⟨hK.1, .inl hK.2⟩) id
    · simpa [hy] using .missed

/-- A brace that the first run reads, or else the first run is at the end of its text. It is not
at the semicolon that the second text lacks. -/
theorem brace_follows :
    (literal ['}']).Follows True (Alongside tails) (Alongside tails) := by
  rintro c c' ⟨k, h⟩
  rcases h.alike_or with halike | ⟨h, hdrops⟩
  · have hbehind : (literal ['}']).Agrees False (Alike tails)
        fun c c' => Alongside tails c c' ∨ Past tails c c' := literal_behindItem (by decide)
    have hbrace : (literal ['}']).Agrees True (Alike tails) (Alongside tails) :=
      hbehind.ended fun _ _ h => h.imp_right fun h => ⟨h.within, h.ahead⟩
    exact .inr (hbrace c c' halike)
  · cases tails with
    | closed | opened | joined => exact hdrops.elim
    | dropped =>
      exact .inl (literal_refuses (by simp) (by simp) c h.within h.ahead)

/-! ## Names, numbers and colours -/

theorem name_agrees : name.Agrees False (Alongside tails) (Alongside tails) :=
  agrees_scan nameLength?_boundary fun h => (nameLength?_bounds h).2

theorem nameAfter_agrees {mark : Char} (hmark : mark ∉ Tails.marks) :
    (nameAfter [mark]).Agrees False (Alongside tails) (Alongside tails) :=
  agrees_preceded (agrees_literal (by simp) fun x hx h => hmark (List.mem_singleton.mp h ▸ hx))
    name_agrees

/-- A name is read in both texts, or in none of them. -/
theorem name_cases (h : Alongside tails c c') :
    (∃ found rest rest', name c = .matched found rest ∧ name c' = .matched found rest' ∧
      Alongside tails rest rest') ∨ MissesAt name c ∧ MissesAt name c' := by
  have hagree := name_agrees c c' h
  generalize hfound : name c = a at hagree ⊢
  generalize hfound' : name c' = b at hagree ⊢
  cases hagree with
  | @matched found _ rest rest' hK =>
    obtain ⟨rfl, hrest⟩ := hK
    exact .inl ⟨found, rest, rest', rfl, rfl, hrest⟩
  | missed => exact .inr ⟨⟨_, _, hfound⟩, ⟨_, _, hfound'⟩⟩
  | ended hd => exact hd.elim
  | failed =>
    unfold name scan at hfound
    split at hfound <;> cases hfound

theorem atName_agrees : atName.Agrees False (Alongside tails) (Alongside tails) := by
  rintro c c' ⟨k, h⟩
  unfold atName
  rw [h.startsWith (by simp) (by simp)]
  split
  · rename_i hstarts
    have hmark := h.advance (h.length_le (by simp) (by simp) hstarts)
    rcases name_cases ⟨_, hmark⟩ with
      ⟨found, rest, rest', hname, hname', hrest⟩ | ⟨⟨_, _, hname⟩, ⟨_, _, hname'⟩⟩
    · rw [List.length_singleton] at hname hname'
      rw [hname, hname']
      exact .matched ⟨rfl, hrest⟩
    · rw [List.length_singleton] at hname hname'
      rw [hname, hname']
      exact .missed
  · exact .missed

theorem unit_agrees : unit.Agrees False (Alongside tails) (Alongside tails) := by
  rintro c c' ⟨k, h⟩
  unfold unit
  rw [h.ahead, h.ahead', unitLength_boundary tails.boundary_first,
    unitLength_boundary tails.boundary_second]
  have hle := unitLength_le k
  generalize unitLength k = count at hle ⊢
  cases count with
  | zero => exact .matched ⟨rfl, k, h⟩
  | succ count =>
    exact (h.matched hle).map fun _ _ _ _ hK => ⟨congrArg some hK.1, hK.2⟩

theorem number_agrees : number.Agrees False (Alongside tails) (Alongside tails) := by
  have hparts : (map (fun found : Text × Option Text => Value.number found.1 found.2)
      (both (scan numberLength? "number") unit)).Agrees False (Alongside tails) (Alongside tails) :=
    agrees_map (agrees_both (agrees_scan numberLength?_boundary fun h => (numberLength?_bounds h).2)
      unit_agrees)
  rintro c c' ⟨k, h⟩
  rw [number_eq h.within.1, number_eq h.within'.1]
  exact hparts c c' ⟨k, h⟩

theorem color_agrees : color.Agrees False (Alongside tails) (Alongside tails) := by
  rintro c c' ⟨k, h⟩
  unfold color
  rw [h.startsWith (by simp) (by simp)]
  split
  · rename_i hstarts
    have hstart := h.advance (h.length_le (by simp) (by simp) hstarts)
    rw [List.length_singleton] at hstart
    generalize k.drop 1 = m at hstart
    generalize c.advance 1 = start at hstart ⊢
    generalize c'.advance 1 = start' at hstart ⊢
    dsimp only
    rw [onward_eq hstart.within.1, onward_eq hstart.within'.1, hstart.ahead, hstart.ahead',
      takeWhile_boundary isHexDigit_boundary tails.boundary_first,
      takeWhile_boundary isHexDigit_boundary tails.boundary_second]
    have hle : (m.takeWhile isHexDigit).length ≤ m.length := (List.takeWhile_sublist _).length_le
    generalize (m.takeWhile isHexDigit).length = count at hle ⊢
    have hstop := hstart.advance hle
    rw [show (start.advance count).peek 1 = _ from peek_of_within hstop.within 1,
      show (start'.advance count).peek 1 = _ from peek_of_within hstop.within' 1,
      hstop.ahead, hstop.ahead', nameGoesOn_boundary_append tails.boundary_first,
      nameGoesOn_boundary_append tails.boundary_second]
    split
    · exact (hstart.matched hle).map fun _ _ _ _ hK => ⟨congrArg Value.color hK.1, hK.2⟩
    · exact .missed
  · exact .missed

/-! ## Addresses -/

/-- Behind the common beginning the first text closes no address. -/
theorem startsWith_paren (h : c.ahead <:+ tails.first) : c.startsWith [')'] = false := by
  rw [startsWith_one, beq_eq_false_iff_ne]
  intro hhead
  have hmem := tails.mem_first _ (h.subset (List.mem_of_mem_head? hhead))
  exact absurd hmem (by decide)

theorem opensQuoted_first (h : l <:+ tails.first) : opensQuoted l = false := by
  cases l with
  | nil => rfl
  | cons x l =>
    have hapart : ∀ x ∈ boundaryChars, isQuotationMark x = false := apart_of_all rfl
    exact hapart x (Tails.marks_subset (tails.mem_first x (h.subset List.mem_cons_self)))

theorem isLowered_take_iff {chars cs : List Char} {count : Nat} (hcount : chars.length = count) :
    isLowered chars (cs.take count) = true ↔ chars <+: cs.map Char.toLower := by
  rw [isLowered, beq_iff_eq, List.map_take, List.prefix_iff_eq_take, hcount, eq_comm]

theorem isLowered_take {chars : List Char} {count : Nat} (hcount : chars.length = count)
    (hl : ∀ x ∈ l.head?, x.toLower ∉ chars) :
    isLowered chars ((k ++ l).take count) = isLowered chars (k.take count) := by
  rw [Bool.eq_iff_iff, isLowered_take_iff hcount, isLowered_take_iff hcount, List.map_append]
  refine ⟨prefix_of_append ?_, fun h => h.trans (List.prefix_append _ _)⟩
  intro x hx
  rw [List.head?_map] at hx
  obtain ⟨y, hy, rfl⟩ := Option.map_eq_some_iff.mp hx
  exact hl y hy

theorem isLowered_url_boundary (tails : Tails lineComments) :
    isLowered ['u', 'r', 'l', '('] ((k ++ tails.first).take 4)
        = isLowered ['u', 'r', 'l', '('] (k.take 4) ∧
      isLowered ['u', 'r', 'l', '('] ((k ++ tails.second).take 4)
        = isLowered ['u', 'r', 'l', '('] (k.take 4) := by
  have hlower : ∀ x ∈ Tails.marks, x.toLower ∉ ['u', 'r', 'l', '('] := by simp
  exact ⟨isLowered_take rfl fun x hx => hlower x (tails.head?_first x hx),
    isLowered_take rfl fun x hx => hlower x (tails.head?_second x hx)⟩

theorem trimBlanks_length_le (cs : List Char) : (trimBlanks cs).length ≤ cs.length := by
  obtain ⟨gap, hgap, -⟩ := trimBlanks_append cs
  have hlength := congrArg List.length hgap
  rw [List.length_append] at hlength
  omega

theorem addressFrom_agrees {x : Char} {start start' place place' : Cursor}
    (h : Abreast tails (x :: k) start start') :
    Agree False (Same (Alongside tails)) (addressFrom place start) (addressFrom place' start') := by
  unfold addressFrom
  rw [show start.peek 1 = _ from peek_of_within h.within 1,
    show start'.peek 1 = _ from peek_of_within h.within' 1, h.ahead, h.ahead']
  rw [show ((x :: k) ++ tails.first).take 1 = [x] from rfl,
    show ((x :: k) ++ tails.second).take 1 = [x] from rfl]
  split
  · exact .missed
  · dsimp only
    rw [onward_eq h.within.1, onward_eq h.within'.1]
    unfold addressChars
    rcases h.skip isAddressChar with ⟨y, m, hfound, hle, hstop⟩ | hover
    · rw [hfound, hstop.startsWith (by simp) (by simp)]
      have htrim := trimBlanks_length_le (start.ahead.takeWhile isAddressChar)
      split
      · exact .matched ⟨congrArg Value.url (h.next (by omega)).symm, m,
          hstop.advance (Nat.le_add_left 1 m.length)⟩
      · exact .failed
    · rw [startsWith_paren hover]
      exact .failed

/-- An address that begins behind the common beginning is not closed. -/
theorem addressFrom_fails {start place : Cursor} (hstart : start.Within)
    (hover : start.ahead <:+ tails.first) :
    ∃ stop expected blamed, addressFrom place start = .failed stop expected blamed := by
  have hquote : opensQuoted (start.peek 1) = false := by
    rw [show start.peek 1 = _ from peek_of_within hstart 1, opensQuoted_take_one]
    exact opensQuoted_first hover
  have hstop : (start.advance (addressChars start.onward).length).ahead <:+ tails.first := by
    rw [ahead_advance hstart.1]
    exact (List.drop_suffix _ _).trans hover
  unfold addressFrom
  rw [hquote, if_neg Bool.false_ne_true]
  dsimp only
  rw [startsWith_paren hstop]
  exact ⟨_, _, _, rfl⟩

theorem url_agrees : url.Agrees False (Alongside tails) (Alongside tails) := by
  rintro c c' ⟨k, h⟩
  rw [url_from c, url_from c', show c.peek 4 = _ from peek_of_within h.within 4,
    show c'.peek 4 = _ from peek_of_within h.within' 4, h.ahead, h.ahead',
    (isLowered_url_boundary tails).1, (isLowered_url_boundary tails).2]
  split
  · rename_i hurl
    have hopened := h.advance (length_of_isLowered_url hurl)
    rw [onward_eq hopened.within.1, onward_eq hopened.within'.1]
    rcases hopened.skip isBlank with ⟨x, m, hblank, -, hstart⟩ | hover
    · rw [hblank]
      exact addressFrom_agrees hstart
    · have hstart := hopened.within.advance (List.takeWhile_sublist isBlank).length_le
      obtain ⟨stop, expected, blamed, hfails⟩ : ∃ stop expected blamed,
          addressFrom c _ = .failed stop expected blamed := addressFrom_fails hstart hover
      rw [hfails]
      exact .failed
  · exact .missed

/-! ## Strings -/

section

variable {quote : Quote} {q : Char}

theorem endsSegment_apart (hq : Mark quote q) {x : Char} {m : List Char}
    (h : endsSegment quote x m = true) : x ∉ Tails.marks := by
  have hopening : ['@', '{'].isPrefixOf (x :: m) = true ∨ ['$', '{'].isPrefixOf (x :: m) = true →
      x = '@' ∨ x = '$' := by
    rintro (h | h)
    · exact .inl (List.cons_prefix_cons.mp (List.isPrefixOf_iff_prefix.mp h)).1.symm
    · exact .inr (List.cons_prefix_cons.mp (List.isPrefixOf_iff_prefix.mp h)).1.symm
  unfold endsSegment opensInterpolation at h
  rw [Bool.or_eq_true, Bool.or_eq_true, hq.chars, beq_iff_eq] at h
  rcases h with h | h
  · obtain rfl := (List.cons.inj h).1
    cases hq <;> decide
  · rcases hopening h with rfl | rfl <;> decide

/-- What stands behind the common beginning opens no interpolation. -/
theorem endsSegment_last (x : Char) (hl : ∀ y ∈ l.head?, y ∈ Tails.marks) :
    endsSegment quote x l = ([x] == quote.chars) := by
  cases l with
  | nil => simp [endsSegment, opensInterpolation, List.isPrefixOf]
  | cons y l =>
    have hy : (y == '{') = false := by
      have hne := hl y rfl
      rw [beq_eq_false_iff_ne]
      rintro rfl
      exact absurd hne (by decide)
    rw [endsSegment_cons, hy, Bool.and_false, Bool.or_false]

theorem endsSegment_second (tails : Tails lineComments) (x : Char) (m : List Char) :
    endsSegment quote x (m ++ tails.second) = endsSegment quote x (m ++ tails.first) := by
  cases m with
  | nil =>
    rw [List.nil_append, List.nil_append, endsSegment_last x tails.head?_first,
      endsSegment_last x tails.head?_second]
  | cons y m => rw [List.cons_append, List.cons_append, endsSegment_cons, endsSegment_cons]

/-- A segment that ends does so within the common beginning. -/
theorem segmentEnd_second (hq : Mark quote q) {count : Nat}
    (h : segmentEnd quote 0 (k ++ tails.first) = .ok count) :
    count < k.length ∧ segmentEnd quote 0 (k ++ tails.second) = .ok count := by
  obtain ⟨x, rest, hdrop, hends⟩ := segmentEnd_stop h
  have hapart : x ∉ tails.first := fun hx => endsSegment_apart hq hends (tails.mem_first x hx)
  have hlength : ((k ++ tails.first).take count).length = count := by
    have := (segmentEnd_bounds h).2
    rw [List.length_take]
    omega
  have hsplit : k ++ tails.first = (k ++ tails.first).take count ++ x :: rest := by
    rw [← hdrop, Nat.sub_zero, List.take_append_drop]
  generalize (k ++ tails.first).take count = t at hlength hsplit
  subst hlength
  rcases append_split hsplit with ⟨inside, rfl, hrest⟩ | ⟨beyond, -, -, hfirst⟩
  · rcases inside with _ | ⟨y, m⟩
    · rw [List.nil_append] at hrest
      exact absurd (hrest ▸ List.mem_cons_self) hapart
    · obtain ⟨rfl, rfl⟩ := List.cons.inj hrest
      refine ⟨by simp, ?_⟩
      have hsecond := segmentEnd_tail hq hends ((endsSegment_second tails x m).trans hends) t 0
      rw [Nat.zero_add] at hsecond
      rw [List.append_assoc] at h ⊢
      exact hsecond h
  · exact absurd (hfirst ▸ List.mem_append_right beyond List.mem_cons_self) hapart

theorem segment_agrees (hq : Mark quote q) :
    (segment quote).Agrees False (Alongside tails) (Alongside tails) := by
  rintro c c' ⟨k, h⟩
  rw [segment_eq h.within.1, segment_eq h.within'.1]
  cases hend : segmentEnd quote 0 c.ahead with
  | error => exact .failed
  | ok count =>
    rw [h.ahead] at hend
    obtain ⟨hlt, hend'⟩ := segmentEnd_second hq hend
    rw [h.ahead', hend']
    exact h.matched (by omega)

theorem segment_failsAtEnd : (segment quote).FailsAtEnd := by
  intro c hc hnil
  rw [segment_eq hc.1, hnil]
  exact ⟨_, _, _, rfl⟩

/-- The first run cannot go on behind an interpolation that only the end of an item closes. -/
theorem delimitedName_follows {opening : List Char} (hne : opening ≠ [])
    (hapart : ∀ x ∈ Tails.marks, x ∉ opening) :
    (delimited (literal opening) name (literal ['}'])).Follows True (Alongside tails)
      (Alongside tails) :=
  follows_map (follows_both (agrees_literal hne hapart)
    (follows_map (follows_both name_agrees brace_follows)))

theorem delimited_misses {α β γ : Type} {f : β → α} {rule : Rule β} {after : Rule γ}
    {opening : List Char} (h : c.startsWith opening = false) :
    MissesAt (map f (delimited (literal opening) rule after)) c :=
  map_misses (map_misses (both_misses (literal_misses h)))

theorem interpolation_agrees :
    (cut interpolation "string interpolation").Agrees True (Alongside tails) (Alongside tails) := by
  refine agrees_cut_of_follows (follows_choice
    (follows_map (delimitedName_follows (by simp) (by simp)))
    (follows_map (delimitedName_follows (by simp) (by simp))) ?_)
  rintro c c' ⟨k, h⟩
  have hvariable : c'.startsWith ['@', '{'] = c.startsWith ['@', '{'] :=
    h.startsWith (by simp) (by simp)
  have hproperty : c'.startsWith ['$', '{'] = c.startsWith ['$', '{'] :=
    h.startsWith (by simp) (by simp)
  cases hopen : c.startsWith ['@', '{'] with
  | false => exact .inl ⟨delimited_misses hopen, delimited_misses (hvariable.trans hopen)⟩
  | true =>
    obtain ⟨l, hl⟩ := (startsWith_iff (by simp)).mp hopen
    have hother : c.startsWith ['$', '{'] = false := startsWith_false (by simp) (by simp [hl])
    exact .inr ⟨delimited_misses hother, delimited_misses (hproperty.trans hother)⟩

variable (hq : Mark quote q)
include hq

theorem startsWith_quote (h : Abreast tails k c c') :
    c'.startsWith quote.chars = c.startsWith quote.chars := by
  refine h.startsWith ?_ ?_
  · simp [hq.chars]
  · rw [hq.chars]
    cases hq <;> simp

theorem quote_le (h : Abreast tails k c c') (hstarts : c.startsWith quote.chars = true) :
    1 ≤ k.length := by
  rw [hq.chars] at hstarts
  refine h.length_le (by simp) ?_ hstarts
  cases hq <;> simp

theorem quoteMark_agrees : (quoteMark quote).Agrees False (Alongside tails) (Alongside tails) := by
  rintro c c' ⟨k, h⟩
  unfold quoteMark
  rw [startsWith_quote hq h]
  split
  · rename_i hstarts
    exact .matched ⟨rfl, _, h.advance (quote_le hq h hstarts)⟩
  · exact .missed

theorem stringPart_agrees :
    (stringPart quote).Agrees False (Alongside tails) (Alongside tails) := by
  have hpart : (both (cut interpolation "string interpolation") (segment quote)).Agrees False
      (Alongside tails) (Alongside tails) :=
    agrees_bind interpolation_agrees (fun _ => agrees_map (segment_agrees hq))
      fun _ _ => failsAtEnd_map segment_failsAtEnd
  rintro c c' ⟨k, h⟩
  unfold stringPart
  rw [startsWith_quote hq h]
  split
  · exact .missed
  · exact hpart c c' ⟨k, h⟩

theorem stringLiteral_agrees :
    (stringLiteral quote).Agrees False (Alongside tails) (Alongside tails) := by
  have hparts : (stringParts quote).Agrees False (Alongside tails) (Alongside tails) :=
    agrees_terminated
      (agrees_many1 (fun _ _ h => h.inStep.within) (stringPart_agrees hq) (stringPart_advances hq))
      (quoteMark_agrees hq).leads nofun
  refine agrees_bind (agrees_preceded (quoteMark_agrees hq) (segment_agrees hq))
    (fun first => ?_) nofun
  rintro c c' ⟨k, h⟩
  dsimp only
  rw [startsWith_quote hq h]
  split
  · rename_i hstarts
    exact .matched ⟨rfl, _, h.advance (quote_le hq h hstarts)⟩
  · exact (hparts c c' ⟨k, h⟩).map fun _ _ _ _ hK =>
      ⟨congrArg (fun parts => Value.interpolated first parts.toList quote) hK.1, hK.2⟩

end

theorem quotedString_agrees : quotedString.Agrees False (Alongside tails) (Alongside tails) := by
  refine agrees_choice ?_
  simp only [List.forall_mem_cons, List.not_mem_nil, false_imp_iff, implies_true, and_true]
  exact ⟨stringLiteral_agrees .double, stringLiteral_agrees .single⟩

end LessSyntax.Grammar
