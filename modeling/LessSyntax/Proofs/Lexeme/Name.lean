import LessSyntax.Grammar.Name
import LessSyntax.Proofs.Accepting

/-!
# Names in their surroundings

A name is up to two hyphens, a start character and name characters, as many as there are. So
a text that is a name stays one wherever no name character follows it; in particular before a
boundary, which is the end of the text or one of the characters behind which something new
begins.

* `nameLength?_eq_some_iff`: the names that a text begins with.
* `isName_iff`: the texts that are names.
* `accepts_name`, `accepts_atName`, `accepts_nameAfter`: names before other texts.
* `name_ensures`, `atName_ensures`, `nameAfter_ensures`: what is read as a name.
-/

namespace LessSyntax.Grammar

open Rule

/-! ## Classes of characters -/

section

variable {isIn : Char → Bool} {cs : List Char} {x y : Char}

/-- Whether a class holds none of the given characters is found by trying them. -/
theorem apart_of_all (h : (cs.all fun c => !isIn c) = true) : ∀ c ∈ cs, isIn c = false := by
  intro c hc
  have hnot := List.all_eq_true.mp h c hc
  simpa using hnot

theorem forall_mem_of_all {p : Char → Prop} [DecidablePred p] (h : (cs.all fun c => p c) = true) :
    ∀ c ∈ cs, p c :=
  fun c hc => of_decide_eq_true (List.all_eq_true.mp h c hc)

theorem notMem_of_apart (h : ∀ c ∈ cs, isIn c = false) (hx : isIn x = true) : x ∉ cs := by
  intro hmem
  rw [h x hmem] at hx
  cases hx

theorem ne_of_class (hx : isIn x = true) (hy : isIn y = false) : x ≠ y := by
  rintro rfl
  rw [hy] at hx
  cases hx

theorem head_cons {p : Char → Prop} (hx : p x) : ∀ c ∈ (x :: cs).head?, p c := by
  intro c hc
  cases hc
  exact hx

end

/-! ## Boundaries -/

/-- The characters that may stand right behind a primitive value. -/
def boundaryChars : List Char := ['\t', '\n', '\r', '\x0c', ' ', '/', ',', ';', '!', ')', '}']

/-- The text is empty or begins with a character behind which something new begins. -/
def Boundary (k : List Char) : Prop := ∀ c ∈ k.head?, c ∈ boundaryChars

theorem boundary_cons {c : Char} (h : c ∈ boundaryChars) (k : List Char) : Boundary (c :: k) := by
  simpa [Boundary] using h

theorem isBlank_mem_boundaryChars {c : Char} (h : isBlank c = true) : c ∈ boundaryChars := by
  simp only [isBlank, Bool.or_eq_true, beq_iff_eq] at h
  rcases h with (((rfl | rfl) | rfl) | rfl) | rfl <;> decide

/-- Every class of characters that holds no boundary stops before one. -/
theorem Boundary.stops {k : List Char} (hk : Boundary k) {isIn : Char → Bool}
    (h : ∀ c ∈ boundaryChars, isIn c = false) : ∀ c ∈ k.head?, isIn c = false :=
  fun c hc => h c (hk c hc)

theorem Boundary.head_ne {k : List Char} (hk : Boundary k) {x : Char} (hx : x ∉ boundaryChars) :
    ∀ c ∈ k.head?, c ≠ x := by
  rintro c hc rfl
  exact hx (hk c hc)

theorem takeWhile_append_stop {isIn : Char → Bool} {cs k : List Char}
    (hcs : ∀ c ∈ cs, isIn c = true) (hk : ∀ c ∈ k.head?, isIn c = false) :
    (cs ++ k).takeWhile isIn = cs := by
  rw [List.takeWhile_append_of_pos hcs]
  cases k with
  | nil => exact List.append_nil cs
  | cons c k => rw [List.takeWhile_cons, hk c rfl, if_neg Bool.false_ne_true, List.append_nil]

/-! ## The texts that are names -/

/-- The text is a name up to its end. -/
def IsName (cs : List Char) : Prop := nameLength? cs = some cs.length

theorem isNameStart_hyphen : isNameStart '-' = false := by decide

theorem isNameChar_boundary : ∀ c ∈ boundaryChars, isNameChar c = false := apart_of_all rfl

/-- The hyphens before a start character are counted; there are two at most. -/
theorem hyphenCount_eq {h : Nat} {x : Char} (hh : h ≤ 2) (hx : isNameStart x = true)
    (r : List Char) : hyphenCount (List.replicate h '-' ++ x :: r) = h := by
  have hne : (x == '-') = false := beq_eq_false_iff_ne.mpr (ne_of_class hx isNameStart_hyphen)
  obtain rfl | rfl | rfl : h = 0 ∨ h = 1 ∨ h = 2 := by omega
  · simp [hyphenCount, hne]
  · simp [hyphenCount, List.replicate_succ, hne]
  · simp [hyphenCount, List.replicate_succ]

theorem take_hyphenCount (cs : List Char) :
    cs.take (hyphenCount cs) = List.replicate (hyphenCount cs) '-' := by
  have hbegins : (cs.take 2).takeWhile (· == '-') <+: cs :=
    (List.takeWhile_prefix _).trans (List.take_prefix 2 cs)
  have htake : cs.take (hyphenCount cs) = (cs.take 2).takeWhile (· == '-') :=
    (List.prefix_iff_eq_take.mp hbegins).symm
  rw [htake]
  refine List.eq_replicate_iff.mpr ⟨rfl, fun c hc => ?_⟩
  simpa using List.all_eq_true.mp List.all_takeWhile c hc

theorem hyphenCount_le (cs : List Char) : hyphenCount cs ≤ 2 := by
  have := (List.takeWhile_sublist (l := cs.take 2) (· == '-')).length_le
  rw [List.length_take] at this
  rw [hyphenCount]
  omega

theorem nameLength?_append {h : Nat} {x : Char} {r k : List Char} (hh : h ≤ 2)
    (hx : isNameStart x = true) (hr : ∀ c ∈ r, isNameChar c = true)
    (hk : ∀ c ∈ k.head?, isNameChar c = false) :
    nameLength? (List.replicate h '-' ++ x :: r ++ k) = some (h + 1 + r.length) := by
  have hcount : hyphenCount (List.replicate h '-' ++ x :: r ++ k) = h := by
    rw [List.append_assoc, List.cons_append]
    exact hyphenCount_eq hh hx (r ++ k)
  have hdrop : (List.replicate h '-' ++ x :: r ++ k).drop h = x :: (r ++ k) := by
    rw [List.append_assoc, List.cons_append]
    exact List.drop_left' List.length_replicate
  simp only [nameLength?, hcount, hdrop, hx, if_true, takeWhile_append_stop hr hk]

/-- A text begins with a name exactly when it begins with hyphens, a start character and name
characters; the name reaches as far as these do. -/
theorem nameLength?_eq_some_iff {cs : List Char} {count : Nat} :
    nameLength? cs = some count ↔
      ∃ h x r k, cs = List.replicate h '-' ++ x :: r ++ k ∧ count = h + 1 + r.length ∧ h ≤ 2 ∧
        isNameStart x = true ∧ (∀ c ∈ r, isNameChar c = true) ∧
        ∀ c ∈ k.head?, isNameChar c = false := by
  constructor
  · intro hcount
    have hmaximal := nameLength?_maximal hcount
    unfold nameLength? at hcount
    split at hcount
    · cases hcount
    · rename_i x rest hdrop
      split at hcount
      · rename_i hx
        cases hcount
        refine ⟨hyphenCount cs, x, rest.takeWhile isNameChar, rest.dropWhile isNameChar, ?_, rfl,
          hyphenCount_le cs, hx, fun c hc => List.all_eq_true.mp List.all_takeWhile c hc, ?_⟩
        · rw [List.append_assoc, List.cons_append, List.takeWhile_append_dropWhile, ← hdrop,
            ← take_hyphenCount, List.take_append_drop]
        · have hrest : cs.drop (hyphenCount cs + 1 + (rest.takeWhile isNameChar).length)
              = rest.dropWhile isNameChar := by
            rw [Nat.add_assoc, ← List.drop_drop, hdrop, Nat.add_comm 1, List.drop_succ_cons,
              drop_takeWhile_length]
          rwa [hrest] at hmaximal
      · cases hcount
  · rintro ⟨h, x, r, k, rfl, rfl, hh, hx, hr, hk⟩
    exact nameLength?_append hh hx hr hk

theorem isName_iff {cs : List Char} :
    IsName cs ↔ ∃ h x r, cs = List.replicate h '-' ++ x :: r ∧ h ≤ 2 ∧ isNameStart x = true ∧
      ∀ c ∈ r, isNameChar c = true := by
  constructor
  · intro hname
    obtain ⟨h, x, r, k, hcs, hcount, hh, hx, hr, -⟩ := nameLength?_eq_some_iff.mp hname
    have hlength := congrArg List.length hcs
    simp only [List.length_append, List.length_replicate, List.length_cons] at hlength
    have hnil : k = [] := List.length_eq_zero_iff.mp (by omega)
    rw [hnil, List.append_nil] at hcs
    exact ⟨h, x, r, hcs, hh, hx, hr⟩
  · rintro ⟨h, x, r, rfl, hh, hx, hr⟩
    have hname := nameLength?_append (k := []) hh hx hr (by simp)
    rw [List.append_nil] at hname
    rw [IsName, hname]
    simp [Nat.add_assoc, Nat.add_comm 1]

/-- What a text begins with as a name is a name. -/
theorem isName_of_append {cs k : List Char} (h : nameLength? (cs ++ k) = some cs.length) :
    IsName cs := by
  obtain ⟨n, x, r, l, hcs, hcount, hn, hx, hr, -⟩ := nameLength?_eq_some_iff.mp h
  refine isName_iff.mpr ⟨n, x, r, ?_, hn, hx, hr⟩
  refine (List.append_inj hcs ?_).1
  simp only [List.length_append, List.length_replicate, List.length_cons]
  omega

/-- A name is read to its end where no name character follows. -/
theorem IsName.append {cs k : List Char} (h : IsName cs)
    (hk : ∀ c ∈ k.head?, isNameChar c = false) : nameLength? (cs ++ k) = some cs.length := by
  obtain ⟨n, x, r, rfl, hn, hx, hr⟩ := isName_iff.mp h
  rw [nameLength?_append hn hx hr hk]
  simp [Nat.add_assoc, Nat.add_comm 1]

theorem IsName.ne_nil {cs : List Char} (h : IsName cs) : cs ≠ [] := by
  rintro rfl
  cases h

theorem isNameChar_hyphen : isNameChar '-' = true := by decide

theorem IsName.all {cs : List Char} (h : IsName cs) : ∀ c ∈ cs, isNameChar c = true := by
  obtain ⟨n, x, r, rfl, -, hx, hr⟩ := isName_iff.mp h
  intro c hc
  rcases List.mem_append.mp hc with hc | hc
  · rw [List.eq_of_mem_replicate hc]
    exact isNameChar_hyphen
  · rcases List.mem_cons.mp hc with rfl | hc
    · exact isNameChar_of_isNameStart hx
    · exact hr c hc

theorem IsName.cons {cs : List Char} (h : IsName cs) :
    ∃ x r, cs = x :: r ∧ isNameChar x = true := by
  cases cs with
  | nil => exact absurd rfl h.ne_nil
  | cons x r => exact ⟨x, r, rfl, h.all x List.mem_cons_self⟩

/-- Where no hyphen and no start character stands there is no name. -/
theorem nameLength?_none {k : List Char} (hk : ∀ c ∈ k.head?, isNameChar c = false) :
    nameLength? k = none := by
  cases hname : nameLength? k with
  | none => rfl
  | some count =>
    have hpos := nameLength?_bounds hname
    have hsplit : nameLength? (k.take count ++ k.drop count) = some (k.take count).length := by
      rw [List.take_append_drop, hname, List.length_take]
      congr 1
      omega
    obtain ⟨x, r, hx, hxname⟩ := (isName_of_append hsplit).cons
    cases k with
    | nil => simp at hx
    | cons c k =>
      obtain ⟨n, rfl⟩ : ∃ n, count = n + 1 := ⟨count - 1, by omega⟩
      rw [List.take_succ_cons] at hx
      rw [← (List.cons.inj hx).1, hk c rfl] at hxname
      cases hxname

/-! ## Reading names -/

variable {cs k : List Char}

theorem accepts_name (h : IsName cs) (hk : ∀ c ∈ k.head?, isNameChar c = false) :
    name.Accepts cs k fun t => t.chars = cs :=
  accepts_scan (h.append hk)

theorem name_refuses (hk : ∀ c ∈ k.head?, isNameChar c = false) : name.Refuses k :=
  scan_refuses (nameLength?_none hk)

theorem name_matched {c rest : Cursor} {t : Text} (hc : c.Within)
    (h : name c = .matched t rest) :
    ∃ cs, c.Reads cs rest ∧ IsName cs ∧ t = c.next cs.length := by
  obtain ⟨count, hcount, rfl, rfl⟩ := scan_matched hc h
  obtain ⟨cs, rfl, hreads⟩ := hc.reads_take (nameLength?_bounds hcount).2
  rw [hreads.ahead] at hcount
  exact ⟨cs, hreads, isName_of_append hcount, rfl⟩

theorem name_ensures {post : Cursor → Text → Cursor → Prop}
    (hpost : ∀ c cs rest, c.Within → c.Reads cs rest → IsName cs → post c (c.next cs.length) rest) :
    name.Ensures post := by
  intro c t rest hc h
  obtain ⟨cs, hreads, his, rfl⟩ := name_matched hc h
  exact ⟨⟨cs, hreads⟩, hpost c cs rest hc hreads his⟩

theorem atName_matched {c rest : Cursor} {t : Text} (h : atName c = .matched t rest) :
    c.startsWith ['@'] = true ∧ name (c.advance 1) = .matched t rest := by
  unfold atName at h
  split at h
  · rename_i hstarts
    refine ⟨hstarts, ?_⟩
    split at h
    · rename_i hname
      rw [hname]
      exact h
    · cases h
  · cases h

theorem atName_misses {c : Cursor} (h : c.startsWith ['@'] = false) : MissesAt atName c := by
  refine ⟨c, "at-keyword", ?_⟩
  unfold atName
  rw [h]
  rfl

theorem atName_refuses (h : ∀ c ∈ k.head?, c ≠ '@') : atName.Refuses k := by
  intro c _ hahead
  exact atName_misses (startsWith_one_false (hahead ▸ h))

theorem accepts_atName (h : IsName cs) (hk : ∀ c ∈ k.head?, isNameChar c = false) :
    atName.Accepts ('@' :: cs) k fun t => t.chars = cs := by
  intro c hc hahead
  have hstarts : c.startsWith ['@'] = true := (Cursor.startsWith_iff (by simp)).mpr ⟨_, hahead⟩
  have hreads := Cursor.Reads.of_startsWith hc hstarts
  have hbehind : (c.advance 1).ahead = cs ++ k := hc.ahead_advance_one hahead
  obtain ⟨t, ht, hchars⟩ := accepts_name h hk _ (hreads.within hc) hbehind
  refine ⟨t, ?_, hchars⟩
  unfold atName
  rw [if_pos hstarts, ht, Cursor.advance_advance, List.length_cons, Nat.add_comm]

theorem atName_ensures {post : Cursor → Text → Cursor → Prop}
    (hpost : ∀ c cs rest, c.Within → c.Reads ['@'] (c.advance 1) → (c.advance 1).Reads cs rest →
      IsName cs → post c ((c.advance 1).next cs.length) rest) : atName.Ensures post := by
  intro c t rest hc h
  obtain ⟨hstarts, hname⟩ := atName_matched h
  have hfirst := Cursor.Reads.of_startsWith hc hstarts
  obtain ⟨cs, hreads, his, rfl⟩ := name_matched (hfirst.within hc) hname
  exact ⟨⟨_, hfirst.trans hreads⟩, hpost c cs rest hc hfirst hreads his⟩

theorem accepts_nameAfter {mark : Char} (h : IsName cs)
    (hk : ∀ c ∈ k.head?, isNameChar c = false) :
    (nameAfter [mark]).Accepts (mark :: cs) k fun t => t.chars = cs :=
  accepts_preceded (accepts_literal (by simp)) (accepts_name h hk)

theorem nameAfter_refuses {mark : Char} (h : ∀ c ∈ k.head?, c ≠ mark) :
    (nameAfter [mark]).Refuses k := by
  intro c _ hahead
  exact map_misses (both_misses (literal_misses (startsWith_one_false (hahead ▸ h))))

theorem nameAfter_ensures {mark : Char} {post : Cursor → Text → Cursor → Prop}
    (hpost : ∀ c cs rest, c.Within → c.Reads [mark] (c.advance 1) → (c.advance 1).Reads cs rest →
      IsName cs → post c ((c.advance 1).next cs.length) rest) :
    (nameAfter [mark]).Ensures post := by
  refine ensures_preceded
    (Q := fun c _ mid => c.Within ∧ c.Reads [mark] mid ∧ mid = c.advance 1)
    (P := fun mid t rest => ∃ cs, mid.Reads cs rest ∧ IsName cs ∧ t = mid.next cs.length)
    (ensures_literal (by simp) fun c rest hc hreads => ⟨hc, hreads, hreads.rest⟩)
    (name_ensures fun c cs rest _ hreads his => ⟨cs, hreads, his, rfl⟩) ?_
  rintro c b mid t rest - - ⟨hc, hfirst, rfl⟩ ⟨cs, hreads, his, rfl⟩
  exact hpost c cs rest hc hfirst hreads his

end LessSyntax.Grammar
