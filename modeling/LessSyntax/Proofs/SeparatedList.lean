import LessSyntax.Proofs.Advancing

/-!
# Separated lists and repetitions

A list with separators is its first element and a repetition: of a separator, and an element behind
it to which the separator commits. The two loops end differently. The list goes on as long as the
separator matches, whatever the element reads; the repetition ends at any miss, and at a match that
reads nothing. But a commitment never misses, and behind a separator that reads something no match
stays where it was.

Only the places in one text count for this, and only that the separator moves on there and the
element does not move back. What is open may change.

* `Rule.MovesIn`: how the matches of a rule move through a text.
* `Rule.separatedUpTo_eq_manyUpTo`: the two loops, by induction on what is left of the text.
* `Rule.separated1_first_then_repeat`: the list, for rules that move through one text.
* `Rule.separated1_eq`: the same for rules that advance in every text.
-/

namespace LessSyntax

variable {α β γ : Type}

/-- The cursor stands in this text or right behind it. -/
structure Cursor.On (text : List Char) (c : Cursor) : Prop where
  text_eq : c.text = text
  within : c.Within

theorem Cursor.On.size {text : List Char} {c : Cursor} (h : c.On text) : c.size = text.length := by
  rw [c.size_eq, h.text_eq]

/-- Further on in the same text there is less room. -/
theorem Cursor.On.room_lt {text : List Char} {c rest : Cursor} (hrest : rest.On text)
    (hc : c.On text) (hpos : c.pos < rest.pos) : rest.room < c.room := by
  have hstop := hrest.within.2
  rw [room, room, hc.size, hrest.size]
  rw [hrest.size] at hstop
  omega

namespace Rule

/-- Every match at a place of the text leads to one that is related to it. -/
def MovesIn (rule : Rule α) (text : List Char) (moves : Int → Int → Prop) : Prop :=
  ∀ c v rest, Cursor.On text c → rule c = .matched v rest →
    Cursor.On text rest ∧ moves c.pos rest.pos

variable {rule : Rule α} {separator : Rule β} {context : String} {text : List Char} {c : Cursor}

theorem Proceeds.movesIn (h : rule.Proceeds) (text : List Char) : rule.MovesIn text (· ≤ ·) := by
  intro c v rest hc hmatch
  have hreach := (h c v rest hc.within hmatch).1
  exact ⟨⟨hreach.text.trans hc.text_eq, hreach.within hc.within⟩, hreach.pos_le⟩

theorem Advances.movesIn (h : rule.Advances) (text : List Char) : rule.MovesIn text (· < ·) := by
  intro c v rest hc hmatch
  obtain ⟨hreach, hpos⟩ := h c v rest hc.within hmatch
  exact ⟨⟨hreach.text.trans hc.text_eq, hreach.within hc.within⟩, hpos⟩

/-! ## The step of the repetition -/

theorem preceded_eq (before : Rule β) (rule : Rule α) (c : Cursor) :
    preceded before rule c = (before c).bind fun _ mid => rule mid := by
  unfold preceded map both
  cases before c with
  | matched b mid => cases hrule : rule mid <;> simp [hrule]
  | _ => rfl

/-- What is committed to does not miss. -/
theorem cut_never_misses (rule : Rule α) (context : String) (c : Cursor) :
    ¬ MissesAt (cut rule context) c := by
  rintro ⟨place, expected, h⟩
  unfold cut at h
  cases hrule : rule c <;> rw [hrule] at h <;> cases h

/-! ## The two loops -/

/-- Both loops run the separator and the element in turn, and end with the same outcome. Behind a
separator there is less room than before it, so that neither of them comes to the end of a bound
that is no less than the room. -/
theorem separatedUpTo_eq_manyUpTo (hrule : rule.MovesIn text (· ≤ ·))
    (hseparator : separator.MovesIn text (· < ·)) {m n : Nat} (hc : c.On text) (hm : c.room ≤ m)
    (hn : c.room ≤ n) :
    separatedUpTo rule separator context m c =
      manyUpTo (preceded separator (cut rule context)) n c := by
  induction hroom : c.room using Nat.strongRecOn generalizing m n c with
  | ind room ih =>
    unfold separatedUpTo manyUpTo
    rw [preceded_eq]
    cases hmark : separator c with
    | missed place expected => rfl
    | failed place expected blamed => rfl
    | matched b next =>
      obtain ⟨hnext, hmark⟩ := hseparator c b next hc hmark
      dsimp only [Outcome.bind]
      cases hvalue : cut rule context next with
      | missed place expected =>
        exact absurd ⟨place, expected, hvalue⟩ (cut_never_misses rule context next)
      | failed place expected blamed => rfl
      | matched v rest =>
        obtain ⟨hrest, hmove⟩ := hrule next v rest hnext (cut_matched.mp hvalue)
        have hless := hrest.room_lt hc (Int.lt_of_lt_of_le hmark hmove)
        obtain ⟨m, rfl⟩ : ∃ m', m = m' + 1 := ⟨m - 1, by omega⟩
        obtain ⟨n, rfl⟩ : ∃ n', n = n' + 1 := ⟨n - 1, by omega⟩
        have hpos : rest.pos ≠ c.pos := by omega
        have hlater := ih rest.room (hroom ▸ hless) hrest (by omega : rest.room ≤ m)
          (by omega : rest.room ≤ n) rfl
        simp only [hpos, if_false]
        rw [hlater]

/-- Behind the first element a list and the repetition do the same. -/
theorem separated1_of_loops (h : ∀ v rest, rule c = .matched v rest →
      separatedUpTo rule separator context rest.room rest =
        many (preceded separator (cut rule context)) rest) :
    separated1 rule separator context c =
      map (fun v => OneOrMore.mk v.1 v.2)
        (both rule (many (preceded separator (cut rule context)))) c := by
  unfold separated1 map both
  cases hfirst : rule c with
  | missed place expected => rfl
  | failed place expected blamed => rfl
  | matched v rest =>
    dsimp only [Outcome.bind]
    rw [h v rest hfirst]
    cases many (preceded separator (cut rule context)) rest <;> rfl

/-- A list with separators is its first element, and then a separator and an element as often as
they match. This holds at each place of a text in which the separator always moves on and the
element never moves back, and for matches, misses and failures alike. -/
theorem separated1_first_then_repeat (hrule : rule.MovesIn text (· ≤ ·))
    (hseparator : separator.MovesIn text (· < ·)) (context : String) (hc : c.On text) :
    separated1 rule separator context c =
      map (fun v => OneOrMore.mk v.1 v.2)
        (both rule (many (preceded separator (cut rule context)))) c := by
  refine separated1_of_loops fun v rest hfirst => ?_
  have hrest := (hrule c v rest hc hfirst).1
  exact separatedUpTo_eq_manyUpTo hrule hseparator hrest (Nat.le_refl _) (Nat.le_refl _)

/-- An element that may be missing: the separator alone makes the list go on. -/
theorem separated1_of_missing_elements :
    ∃ text c rest, (opt (literal ['a'])).MovesIn text (· ≤ ·) ∧
      (literal [',']).MovesIn text (· < ·) ∧ c.On text ∧ c.ahead = ['a', ',', ',', 'a', ';'] ∧
      rest.ahead = [';'] ∧
      separated1 (opt (literal ['a'])) (literal [',']) "list" c =
        .matched ⟨some ⟨['a'], some ⟨0, 1⟩⟩, [none, some ⟨['a'], some ⟨3, 4⟩⟩]⟩ rest ∧
      separated1 (opt (literal ['a'])) (literal [',']) "list" c =
        map (fun v => OneOrMore.mk v.1 v.2) (both (opt (literal ['a']))
          (many (preceded (literal [',']) (cut (opt (literal ['a'])) "list")))) c := by
  have hcomma : (literal [',']).Advances := literal_advances (by simp)
  have hletter : (opt (literal ['a'])).Proceeds :=
    ensures_opt (ensures_literal (by simp) fun _ _ _ _ => trivial) fun _ => trivial
  have hrule := hletter.movesIn ['a', ',', ',', 'a', ';']
  have hseparator := hcomma.movesIn ['a', ',', ',', 'a', ';']
  have hc : (Cursor.ofText ['a', ',', ',', 'a', ';']).On _ := ⟨rfl, Cursor.within_ofText _⟩
  exact ⟨_, _, (Cursor.ofText ['a', ',', ',', 'a', ';']).advance 4, hrule, hseparator, hc, rfl, rfl,
    rfl, separated1_first_then_repeat hrule hseparator "list" hc⟩

/-- A list with separators, for rules that go on in every text. -/
theorem separated1_eq (hrule : rule.Proceeds) (hseparator : separator.Advances) (hc : c.Within) :
    separated1 rule separator context c =
      map (fun v => OneOrMore.mk v.1 v.2)
        (both rule (many (preceded separator (cut rule context)))) c := by
  refine separated1_of_loops fun v rest hfirst => ?_
  have hrest := (hrule.movesIn c.text c v rest ⟨rfl, hc⟩ hfirst).1
  exact separatedUpTo_eq_manyUpTo (hrule.movesIn c.text) (hseparator.movesIn c.text) hrest
    (Nat.le_refl _) (Nat.le_refl _)

/-- Behind a separator a miss is a failure. -/
example : separated1 (literal ['a']) (literal [',']) "list" (.ofText ['a', ',', 'b']) =
    .failed ((Cursor.ofText ['a', ',', 'b']).advance 2) (quoted ['a']) "list" := rfl

end Rule

end LessSyntax
