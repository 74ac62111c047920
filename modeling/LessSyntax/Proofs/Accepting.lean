import LessSyntax.Proofs.Reading

/-!
# Texts that a rule accepts

The other direction of `Rule.Ensures`: what has to be ahead for a rule to match. A rule accepts
a text before another one when it reads exactly the first wherever the two are ahead. It
refuses a text when it misses wherever that text is ahead. Neither depends on the place or on
what stands before it.

* `Rule.accepts_both`, `Rule.accepts_choice_head`, `Rule.accepts_choice_tail`: combined rules.
* `Rule.many_of_matched`: a repetition goes on behind a match, whatever its bound.
* `Rule.accepts_many`, `Rule.accepts_separated1`: repetitions over a list of texts.
-/

namespace LessSyntax.Rule

variable {α β γ : Type}

/-- With `cs` and then `k` ahead the rule matches, reads `cs` and gives a value with the
property. -/
def Accepts (rule : Rule α) (cs k : List Char) (post : α → Prop) : Prop :=
  ∀ c : Cursor, c.Within → c.ahead = cs ++ k →
    ∃ v, rule c = .matched v (c.advance cs.length) ∧ post v

/-- With `k` ahead the rule misses. -/
def Refuses (rule : Rule α) (k : List Char) : Prop :=
  ∀ c : Cursor, c.Within → c.ahead = k → MissesAt rule c

variable {rule : Rule α} {cs ds k : List Char} {P : α → Prop}

theorem accepts_mono (h : rule.Accepts cs k P) {Q : α → Prop} (hPQ : ∀ v, P v → Q v) :
    rule.Accepts cs k Q := by
  intro c hc hahead
  obtain ⟨v, hv, hP⟩ := h c hc hahead
  exact ⟨v, hv, hPQ v hP⟩

/-! ## Sequence -/

theorem accepts_bind {next : α → Rule β} {Q : β → Prop} (hrule : rule.Accepts cs (ds ++ k) P)
    (hnext : ∀ a, P a → (next a).Accepts ds k Q) :
    Rule.Accepts (fun c => (rule c).bind next) (cs ++ ds) k Q := by
  intro c hc hahead
  rw [List.append_assoc] at hahead
  obtain ⟨a, ha, hP⟩ := hrule c hc hahead
  have hreads := hc.reads hahead
  obtain ⟨v, hv, hQ⟩ := hnext a hP _ (hreads.within hc) (hc.ahead_advance hahead)
  refine ⟨v, ?_, hQ⟩
  rw [List.length_append, ← Cursor.advance_advance]
  exact Outcome.bind_matched.mpr ⟨a, _, ha, hv⟩

theorem accepts_map {f : α → β} {Q : β → Prop} (hrule : rule.Accepts cs k fun v => Q (f v)) :
    (map f rule).Accepts cs k Q := by
  intro c hc hahead
  obtain ⟨v, hv, hQ⟩ := hrule c hc hahead
  exact ⟨f v, map_matched.mpr ⟨v, hv, rfl⟩, hQ⟩

theorem accepts_both {second : Rule β} {Q : β → Prop} (hrule : rule.Accepts cs (ds ++ k) P)
    (hsecond : second.Accepts ds k Q) :
    (both rule second).Accepts (cs ++ ds) k fun v => P v.1 ∧ Q v.2 :=
  accepts_bind hrule fun _ hP => accepts_map (accepts_mono hsecond fun _ hQ => ⟨hP, hQ⟩)

theorem accepts_terminated {after : Rule β} {Q : β → Prop} (hrule : rule.Accepts cs (ds ++ k) P)
    (hafter : after.Accepts ds k Q) : (terminated rule after).Accepts (cs ++ ds) k P :=
  accepts_map (accepts_mono (accepts_both hrule hafter) fun _ h => h.1)

theorem accepts_preceded {before : Rule β} {Q : β → Prop}
    (hbefore : before.Accepts cs (ds ++ k) Q) (hrule : rule.Accepts ds k P) :
    (preceded before rule).Accepts (cs ++ ds) k P :=
  accepts_map (accepts_mono (accepts_both hbefore hrule) fun _ h => h.2)

theorem accepts_cut {context : String} (hrule : rule.Accepts cs k P) :
    (cut rule context).Accepts cs k P := by
  intro c hc hahead
  obtain ⟨v, hv, hP⟩ := hrule c hc hahead
  exact ⟨v, cut_matched.mpr hv, hP⟩

theorem bind_misses {next : α → Cursor → Outcome β} {c : Cursor} (h : MissesAt rule c) :
    MissesAt (fun c => (rule c).bind next) c := by
  obtain ⟨place, expected, h⟩ := h
  exact ⟨place, expected, by simp [h]⟩

theorem map_misses {f : α → β} {c : Cursor} (h : MissesAt rule c) : MissesAt (map f rule) c :=
  bind_misses h

theorem both_misses {second : Rule β} {c : Cursor} (h : MissesAt rule c) :
    MissesAt (both rule second) c :=
  bind_misses h

theorem bind_refuses {next : α → Cursor → Outcome β} (h : rule.Refuses k) :
    Refuses (fun c => (rule c).bind next) k :=
  fun c hc hahead => bind_misses (h c hc hahead)

theorem map_refuses {f : α → β} (h : rule.Refuses k) : (map f rule).Refuses k := bind_refuses h

theorem both_refuses_first {second : Rule β} (h : rule.Refuses k) :
    (both rule second).Refuses k := bind_refuses h

theorem terminated_refuses_first {after : Rule β} (h : rule.Refuses k) :
    (terminated rule after).Refuses k := map_refuses (both_refuses_first h)

/-- What the first rule accepts and the second refuses behind it, both together refuse. -/
theorem both_refuses {second : Rule β} (hrule : rule.Accepts cs k P) (hsecond : second.Refuses k) :
    (both rule second).Refuses (cs ++ k) := by
  intro c hc hahead
  obtain ⟨a, ha, -⟩ := hrule c hc hahead
  have hreads := hc.reads hahead
  obtain ⟨place, expected, hmiss⟩ := hsecond _ (hreads.within hc) (hc.ahead_advance hahead)
  refine ⟨place, expected, ?_⟩
  simp [both, ha, hmiss]

/-! ## Choice -/

theorem choice_head {rules : List (Rule α)} {expected : Option String} {c rest : Cursor} {v : α}
    (h : rule c = .matched v rest) : choice (rule :: rules) expected c = .matched v rest := by
  apply relabel_matched.mpr
  cases rules with
  | nil => exact h
  | cons next rules => simp [firstOf, h]

theorem choice_tail {rules : List (Rule α)} {expected : Option String} {c rest : Cursor} {v : α}
    (hmiss : MissesAt rule c) (h : choice rules expected c = .matched v rest) :
    choice (rule :: rules) expected c = .matched v rest := by
  obtain ⟨place, label, hmiss⟩ := hmiss
  cases rules with
  | nil => cases h
  | cons next rules =>
    have hlater := relabel_matched.mp h
    apply relabel_matched.mpr
    simp only [firstOf, hmiss, Outcome.orElse, hlater]

theorem orElse_misses {first : Outcome α} {second : Unit → Outcome α}
    (hfirst : ∃ place expected, first = .missed place expected)
    (hsecond : ∃ place expected, second () = .missed place expected) :
    ∃ place expected, first.orElse second = .missed place expected := by
  obtain ⟨place, expected, rfl⟩ := hfirst
  obtain ⟨place', expected', hsecond⟩ := hsecond
  simp only [Outcome.orElse, hsecond]
  split
  · exact ⟨place', expected', rfl⟩
  · exact ⟨place, expected, rfl⟩

theorem firstOf_misses {rules : List (Rule α)} {c : Cursor} (hrule : MissesAt rule c)
    (hrules : ∀ r ∈ rules, MissesAt r c) : MissesAt (firstOf rule rules) c := by
  induction rules generalizing rule with
  | nil => exact hrule
  | cons next rules ih =>
    exact orElse_misses hrule
      (ih (hrules next List.mem_cons_self) fun r hr => hrules r (List.mem_cons_of_mem _ hr))

theorem choice_misses {rules : List (Rule α)} {expected : Option String} {c : Cursor}
    (hrules : ∀ r ∈ rules, MissesAt r c) : MissesAt (choice rules expected) c := by
  cases rules with
  | nil => exact ⟨c, _, rfl⟩
  | cons rule rules =>
    obtain ⟨place, label, h⟩ := firstOf_misses (hrules rule List.mem_cons_self)
      fun r hr => hrules r (List.mem_cons_of_mem _ hr)
    unfold choice
    simp only [h, MissesAt]
    cases expected with
    | none => exact ⟨place, label, rfl⟩
    | some expected => exact ⟨place, expected, rfl⟩

theorem choice_refuses {rules : List (Rule α)} {expected : Option String}
    (hrules : ∀ r ∈ rules, r.Refuses k) : (choice rules expected).Refuses k :=
  fun c hc hahead => choice_misses fun r hr => hrules r hr c hc hahead

theorem accepts_choice_head {rules : List (Rule α)} {expected : Option String}
    (hrule : rule.Accepts cs k P) : (choice (rule :: rules) expected).Accepts cs k P := by
  intro c hc hahead
  obtain ⟨v, hv, hP⟩ := hrule c hc hahead
  exact ⟨v, choice_head hv, hP⟩

theorem accepts_choice_tail {rules : List (Rule α)} {expected : Option String}
    (hmiss : rule.Refuses (cs ++ k)) (hrules : (choice rules expected).Accepts cs k P) :
    (choice (rule :: rules) expected).Accepts cs k P := by
  intro c hc hahead
  obtain ⟨v, hv, hP⟩ := hrules c hc hahead
  exact ⟨v, choice_tail (hmiss c hc hahead) hv, hP⟩

theorem opt_of_misses {c : Cursor} (h : MissesAt rule c) : opt rule c = .matched none c := by
  obtain ⟨place, expected, h⟩ := h
  simp only [opt, h]

theorem accepts_opt_none (h : rule.Refuses k) : (opt rule).Accepts [] k (· = none) := by
  intro c hc hahead
  refine ⟨none, ?_, rfl⟩
  rw [List.length_nil, Cursor.advance_zero]
  exact opt_of_misses (h c hc hahead)

theorem accepts_opt {Q : Option α → Prop} (hrule : rule.Accepts cs k fun v => Q (some v)) :
    (opt rule).Accepts cs k Q := by
  intro c hc hahead
  obtain ⟨v, hv, hQ⟩ := hrule c hc hahead
  exact ⟨some v, by simp only [opt, hv], hQ⟩

/-! ## Leaves -/

theorem accepts_peek (hrule : rule.Accepts cs k P) : (peek rule).Accepts [] (cs ++ k) P := by
  intro c hc hahead
  obtain ⟨v, hv, hP⟩ := hrule c hc hahead
  refine ⟨v, ?_, hP⟩
  rw [peek, hv, List.length_nil, Cursor.advance_zero]

theorem accepts_literal (hne : cs ≠ []) : (literal cs).Accepts cs k fun t => t.chars = cs := by
  intro c hc hahead
  refine ⟨c.next cs.length, ?_, (hc.reads hahead).chars_next hc⟩
  unfold literal
  rw [if_pos ((Cursor.startsWith_iff hne).mpr ⟨k, hahead⟩)]

theorem literal_misses {chars : List Char} {c : Cursor} (h : c.startsWith chars = false) :
    MissesAt (literal chars) c := by
  refine ⟨c, quoted chars, ?_⟩
  unfold literal
  rw [if_neg (by simp [h])]

theorem startsWith_false {c : Cursor} {chars : List Char} (hne : chars ≠ [])
    (h : ¬ chars <+: c.ahead) : c.startsWith chars = false := by
  rw [Bool.eq_false_iff]
  intro hstarts
  obtain ⟨k, hk⟩ := (Cursor.startsWith_iff hne).mp hstarts
  exact h ⟨k, hk.symm⟩

/-- Where another character stands, or none, the text does not begin with this one. -/
theorem startsWith_one_false {c : Cursor} {x : Char} (h : ∀ y ∈ c.ahead.head?, y ≠ x) :
    c.startsWith [x] = false := by
  apply startsWith_false (by simp)
  rintro ⟨k, hk⟩
  exact h x (by rw [← hk]; rfl) rfl

theorem literal_refuses {chars : List Char} (hne : chars ≠ []) (h : ¬ chars <+: k) :
    (literal chars).Refuses k := by
  intro c _ hahead
  exact literal_misses (startsWith_false hne (hahead ▸ h))

theorem accepts_scan {length? : List Char → Option Nat} {expected : String}
    (h : length? (cs ++ k) = some cs.length) :
    (scan length? expected).Accepts cs k fun t => t.chars = cs := by
  intro c hc hahead
  refine ⟨c.next cs.length, ?_, ?_⟩
  · simp only [scan, Cursor.onward_eq hc.1, hahead, h]
  · exact (hc.reads hahead).chars_next hc

theorem scan_refuses {length? : List Char → Option Nat} {expected : String}
    (h : length? k = none) : (scan length? expected).Refuses k := by
  intro c hc hahead
  exact ⟨c, expected, by simp only [scan, Cursor.onward_eq hc.1, hahead, h]⟩

/-! ## Repetition -/

theorem many_of_misses {c : Cursor} (h : MissesAt rule c) : many rule c = .matched [] c := by
  obtain ⟨place, expected, h⟩ := h
  unfold many manyUpTo
  simp only [h]

theorem many_of_failed {c place : Cursor} {expected blamed : String}
    (h : rule c = .failed place expected blamed) : many rule c = .failed place expected blamed := by
  unfold many manyUpTo
  simp only [h]

/-- From the room of the cursor on, the bound of a repetition does not count. -/
theorem manyUpTo_eq {post : Cursor → α → Cursor → Prop} (hrule : rule.Ensures post)
    {bound bound' : Nat} {c : Cursor} (hc : c.Within) (h : c.room ≤ bound)
    (h' : c.room ≤ bound') : manyUpTo rule bound c = manyUpTo rule bound' c := by
  induction bound generalizing bound' c with
  | zero =>
    unfold manyUpTo
    cases hmatch : rule c with
    | failed place expected blamed => rfl
    | missed place expected => rfl
    | matched v rest =>
      by_cases hpos : rest.pos = c.pos
      · simp only [hpos, if_true]
      · have := (hrule c v rest hc hmatch).1.room_lt hc hpos
        omega
  | succ bound ih =>
    unfold manyUpTo
    cases hmatch : rule c with
    | failed place expected blamed => rfl
    | missed place expected => rfl
    | matched v rest =>
      by_cases hpos : rest.pos = c.pos
      · simp only [hpos, if_true]
      · have hreach := (hrule c v rest hc hmatch).1
        have hroom := hreach.room_lt hc hpos
        obtain ⟨bound', rfl⟩ : ∃ n, bound' = n + 1 := ⟨bound' - 1, by omega⟩
        simp only [hpos, if_false]
        rw [ih (hreach.within hc) (by omega) (by omega : rest.room ≤ bound')]

/-- A repetition goes on behind a match that reads something. -/
theorem many_of_matched {post : Cursor → α → Cursor → Prop} (hrule : rule.Ensures post)
    {c rest : Cursor} {v : α} (hc : c.Within) (h : rule c = .matched v rest)
    (hpos : rest.pos ≠ c.pos) : many rule c = (many rule rest).map (v :: ·) := by
  have hreach := (hrule c v rest hc h).1
  have hroom := hreach.room_lt hc hpos
  obtain ⟨bound, hbound⟩ : ∃ n, c.room = n + 1 := ⟨c.room - 1, by omega⟩
  unfold many
  rw [hbound]
  conv =>
    lhs
    unfold manyUpTo
  simp only [h, hpos, if_false]
  rw [manyUpTo_eq hrule (hreach.within hc) (by omega) (Nat.le_refl _)]

/-- The values are spelled by texts that stand one after the other, before what follows them. -/
inductive Spells (P : β → List Char → List Char → Prop) : List β → List Char → List Char → Prop
  | nil {k : List Char} : Spells P [] [] k
  | cons {x : β} {xs : List β} {t text k : List Char} (hfirst : P x t (text ++ k))
    (hothers : Spells P xs text k) : Spells P (x :: xs) (t ++ text) k

section

variable {P : β → List Char → List Char → Prop} {xs : List β} {text : List Char}

theorem Spells.mono {Q : β → List Char → List Char → Prop} (hPQ : ∀ x t l, P x t l → Q x t l)
    (h : Spells P xs text k) : Spells Q xs text k := by
  induction h with
  | nil => exact .nil
  | cons hfirst _ ih => exact .cons (hPQ _ _ _ hfirst) ih

theorem spells_flatMap {text : β → List Char}
    (h : ∀ x ∈ xs, ∀ ys, ys ⊆ xs → P x (text x) (ys.flatMap text ++ k)) :
    Spells P xs (xs.flatMap text) k := by
  induction xs with
  | nil => exact .nil
  | cons x xs ih =>
    refine .cons (h x List.mem_cons_self xs (List.subset_cons_self x xs)) (ih fun y hy ys hys => ?_)
    exact h y (List.mem_cons_of_mem _ hy) ys (List.subset_cons_of_subset _ hys)

theorem Spells.length_le (hne : ∀ x t l, P x t l → t ≠ []) (h : Spells P xs text k) :
    xs.length ≤ text.length := by
  induction h with
  | nil => exact Nat.le_refl _
  | cons hfirst _ ih =>
    have hpos := List.length_pos_iff.mpr (hne _ _ _ hfirst)
    rw [List.length_append, List.length_cons]
    omega

end

section

variable {R : β → α → Prop} {S : List β → List α → Prop} {xs : List β} {text : List Char}
  {separator : Rule γ} {context : String}

/-- The rule reads the text, which is not empty, as the value. -/
def Repeats (rule : Rule α) (R : β → α → Prop) (x : β) (t l : List Char) : Prop :=
  t ≠ [] ∧ rule.Accepts t l (R x)

/-- The text is a separator and what the rule reads as the value. -/
def Separates (rule : Rule α) (separator : Rule γ) (R : β → α → Prop) (x : β) (t l : List Char) :
    Prop :=
  ∃ mark cs, t = mark ++ cs ∧ mark ≠ [] ∧ separator.Accepts mark (cs ++ l) (fun _ => True) ∧
    rule.Accepts cs l (R x)

theorem accepts_manyUpTo (hnil : S [] [])
    (hcons : ∀ x v xs vs, R x v → S xs vs → S (x :: xs) (v :: vs))
    (h : Spells (Repeats rule R) xs text k) (hstop : rule.Refuses k) {bound : Nat}
    (hbound : xs.length ≤ bound) : (manyUpTo rule bound).Accepts text k (S xs) := by
  induction h generalizing bound with
  | nil =>
    intro c hc hahead
    obtain ⟨place, expected, hmiss⟩ := hstop c hc hahead
    refine ⟨[], ?_, hnil⟩
    rw [List.length_nil, Cursor.advance_zero]
    unfold manyUpTo
    simp only [hmiss]
  | @cons x xs t text k hfirst _ ih =>
    intro c hc hahead
    obtain ⟨bound, rfl⟩ : ∃ n, bound = n + 1 := ⟨bound - 1, by simp at hbound; omega⟩
    rw [List.append_assoc] at hahead
    obtain ⟨hne, haccepts⟩ := hfirst
    obtain ⟨v, hv, hR⟩ := haccepts c hc hahead
    obtain ⟨vs, hvs, hS⟩ := ih hstop (by simpa using hbound) _ ((hc.reads hahead).within hc)
      (hc.ahead_advance hahead)
    have hpos : (c.advance t.length).pos ≠ c.pos := by
      have := List.length_pos_iff.mpr hne
      rw [Cursor.pos_advance]
      omega
    refine ⟨v :: vs, ?_, hcons x v xs vs hR hS⟩
    unfold manyUpTo
    simp only [hv, hpos, if_false]
    rw [hvs, List.length_append, Cursor.advance_advance]
    rfl

/-- Texts one after the other, up to a text that the rule refuses. -/
theorem accepts_many (hnil : S [] [])
    (hcons : ∀ x v xs vs, R x v → S xs vs → S (x :: xs) (v :: vs))
    (h : Spells (Repeats rule R) xs text k) (hstop : rule.Refuses k) :
    (many rule).Accepts text k (S xs) := by
  intro c hc hahead
  refine accepts_manyUpTo hnil hcons h hstop ?_ c hc hahead
  rw [← Cursor.length_ahead hc.1, hahead, List.length_append]
  have := h.length_le fun _ _ _ hrepeats => hrepeats.1
  omega

theorem accepts_separatedUpTo (hnil : S [] [])
    (hcons : ∀ x v xs vs, R x v → S xs vs → S (x :: xs) (v :: vs))
    (h : Spells (Separates rule separator R) xs text k) (hstop : separator.Refuses k) {bound : Nat}
    (hbound : xs.length ≤ bound) :
    (separatedUpTo rule separator context bound).Accepts text k (S xs) := by
  induction h generalizing bound with
  | nil =>
    intro c hc hahead
    obtain ⟨place, expected, hmiss⟩ := hstop c hc hahead
    refine ⟨[], ?_, hnil⟩
    rw [List.length_nil, Cursor.advance_zero]
    unfold separatedUpTo
    simp only [hmiss]
  | @cons x xs _ text k hfirst _ ih =>
    intro c hc hahead
    obtain ⟨bound, rfl⟩ : ∃ n, bound = n + 1 := ⟨bound - 1, by simp at hbound; omega⟩
    obtain ⟨mark, cs, rfl, -, hmark, hrule⟩ := hfirst
    rw [List.append_assoc, List.append_assoc] at hahead
    obtain ⟨b, hb, -⟩ := hmark c hc hahead
    have hmid := (hc.reads hahead).within hc
    have hbehind := hc.ahead_advance hahead
    obtain ⟨v, hv, hR⟩ := hrule _ hmid hbehind
    obtain ⟨vs, hvs, hS⟩ := ih hstop (by simpa using hbound) _ ((hmid.reads hbehind).within hmid)
      (hmid.ahead_advance hbehind)
    refine ⟨v :: vs, ?_, hcons x v xs vs hR hS⟩
    unfold separatedUpTo
    simp only [hb, cut_matched.mpr hv, Outcome.bind]
    rw [hvs, Cursor.advance_advance, Cursor.advance_advance, List.length_append, List.length_append,
      Nat.add_assoc]
    rfl

/-- A text, and further texts behind separators, up to a text that the separator refuses. -/
theorem accepts_separated1 {first : List Char} {Q : α → Prop} {post : OneOrMore α → Prop}
    (hnil : S [] []) (hcons : ∀ x v xs vs, R x v → S xs vs → S (x :: xs) (v :: vs))
    (hfirst : rule.Accepts first (text ++ k) Q)
    (hothers : Spells (Separates rule separator R) xs text k) (hstop : separator.Refuses k)
    (hpost : ∀ v vs, Q v → S xs vs → post ⟨v, vs⟩) :
    (separated1 rule separator context).Accepts (first ++ text) k post := by
  refine accepts_bind hfirst fun v hQ => accepts_map ?_
  intro c hc hahead
  have hbound : xs.length ≤ c.room := by
    rw [← Cursor.length_ahead hc.1, hahead, List.length_append]
    have := hothers.length_le fun x t l ⟨mark, cs, ht, hne, _⟩ => by
      rw [ht]
      exact List.append_ne_nil_of_left_ne_nil hne _
    omega
  obtain ⟨vs, hvs, hS⟩ := accepts_separatedUpTo hnil hcons hothers hstop hbound c hc hahead
  exact ⟨vs, hvs, hpost v vs hQ hS⟩

end

end LessSyntax.Rule
