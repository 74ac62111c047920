import LessSyntax.Proofs.RunEnds
import LessSyntax.Proofs.SeparatedList

/-!
# Readings that can be completed

A rule is compared with another one, which reads more. Where the first one matches, the second one
reads the same text, also before many other texts. Where the first one stops, the text up to the
place that it names can be completed to one that the second rule reads. So the place stands at the
end of the beginning of something readable. A rule can be compared with itself as well, but then
only what it matches is promised.

What may stand behind the text that is read is stated with what stood there before: it may matter
that a text goes on as it did. The same holds for what is known about the text ahead.

* `Outcome.StopsAt`: where an outcome says that something else was expected.
* `Rule.ViableIf`: how the two rules are compared, and `Rule.Viable` where the second one goes
  deeper. There is one lemma for each way to combine rules:
  `viable_map`, `viable_cut`, `viable_both`, `viable_choice`, `viable_opt`, `viable_many`,
  `viable_separated1`.
-/

namespace LessSyntax

variable {α β γ δ : Type}

/-! ## Where an outcome stops -/

/-- The outcome is no match, and names the place. -/
inductive Outcome.StopsAt : Outcome α → Cursor → Prop
  | missed {place : Cursor} {expected : String} : StopsAt (.missed place expected) place
  | failed {place : Cursor} {expected rule : String} : StopsAt (.failed place expected rule) place

/-! ## The text up to a place -/

/-- The text between the two places, whatever is open at the second one. -/
def Cursor.ReadsTo (c : Cursor) (cs : List Char) (place : Cursor) : Prop :=
  c.Reads cs (place.withDepth c.depth)

namespace Cursor

variable {c mid place : Cursor} {cs ds : List Char}

theorem Reads.to (h : c.Reads cs place) : c.ReadsTo cs place := by
  unfold ReadsTo
  rw [← h.depth]
  exact h

theorem ReadsTo.refl (c : Cursor) : c.ReadsTo [] c := (Reads.refl c).to

theorem ReadsTo.of_eq (h : place = c) : c.ReadsTo [] place := h ▸ .refl c

theorem Reads.trans_to (h : c.Reads cs mid) (h' : mid.ReadsTo ds place) :
    c.ReadsTo (cs ++ ds) place := by
  unfold ReadsTo at h' ⊢
  rw [h.depth] at h'
  exact h.trans h'

theorem ReadsTo.of_nested (h : c.nested.ReadsTo cs place) : c.ReadsTo cs place := by
  have hinside := (show c.nested.Reads cs (place.withDepth c.nested.depth) from h).of_nested
  exact hinside

theorem ReadsTo.ahead (h : c.ReadsTo cs place) : c.ahead = cs ++ place.ahead :=
  (show c.Reads cs (place.withDepth c.depth) from h).ahead

theorem ReadsTo.pos (h : c.ReadsTo cs place) : place.pos = c.pos + cs.length :=
  (show c.Reads cs (place.withDepth c.depth) from h).pos

end Cursor

namespace Outcome

variable {outcome : Outcome α} {place rest : Cursor} {v : α}

theorem StopsAt.not_matched (h : outcome.StopsAt place) : outcome ≠ .matched v rest := by
  rintro rfl
  cases h

theorem StopsAt.bind {next : α → Cursor → Outcome β} (h : outcome.StopsAt place) :
    (outcome.bind next).StopsAt place := by
  cases h <;> constructor

theorem stopsAt_bind {next : α → Cursor → Outcome β} (h : (outcome.bind next).StopsAt place) :
    outcome.StopsAt place ∨ ∃ a mid, outcome = .matched a mid ∧ (next a mid).StopsAt place := by
  cases outcome with
  | matched a mid => exact .inr ⟨a, mid, rfl, h⟩
  | missed place' expected =>
    cases h
    exact .inl .missed
  | failed place' expected rule =>
    cases h
    exact .inl .failed

theorem stopsAt_map {f : α → β} (h : (outcome.map f).StopsAt place) : outcome.StopsAt place := by
  rcases stopsAt_bind h with h | ⟨a, mid, -, h⟩
  · exact h
  · cases h

theorem stopsAt_relabel {label : Option String} :
    (outcome.relabel label).StopsAt place ↔ outcome.StopsAt place := by
  constructor <;> intro h <;> cases outcome <;> cases label <;> cases h <;> constructor

theorem stopsAt_orElse {second : Unit → Outcome α} (h : (outcome.orElse second).StopsAt place) :
    outcome.StopsAt place ∨
      (∃ start expected, outcome = .missed start expected) ∧ (second ()).StopsAt place := by
  cases outcome with
  | matched v rest => cases h
  | failed place' expected rule => exact .inl h
  | missed place' expected =>
    unfold orElse at h
    dsimp only at h
    cases hsecond : second () with
    | matched v rest =>
      rw [hsecond] at h
      cases h
    | failed place'' expected' rule =>
      rw [hsecond] at h
      exact .inr ⟨⟨_, _, rfl⟩, h⟩
    | missed place'' expected' =>
      rw [hsecond] at h
      dsimp only at h
      split at h
      · exact .inr ⟨⟨_, _, rfl⟩, h⟩
      · exact .inl h

end Outcome

namespace Rule

variable {rule : Rule α} {c rest place : Cursor}

theorem stopsAt_cut {context : String} (h : (cut rule context c).StopsAt place) :
    (rule c).StopsAt place := by
  unfold cut at h
  cases hrule : rule c with
  | matched v rest =>
    rw [hrule] at h
    cases h
  | missed place' expected =>
    rw [hrule] at h
    cases h
    exact .missed
  | failed place' expected blamed =>
    rw [hrule] at h
    cases h
    exact .failed

/-- A choice stops where its first rule does, or where the others do behind a miss of that one. -/
theorem stopsAt_choice_cons {rules : List (Rule α)} {label : Option String}
    (h : (choice (rule :: rules) label c).StopsAt place) :
    (rule c).StopsAt place ∨ MissesAt rule c ∧ (choice rules label c).StopsAt place := by
  have hfirst := Outcome.stopsAt_relabel.mp h
  cases rules with
  | nil => exact .inl hfirst
  | cons next rules =>
    exact (Outcome.stopsAt_orElse hfirst).imp_right (And.imp_right Outcome.stopsAt_relabel.mpr)

/-- A choice stops where one of its rules does. -/
theorem stopsAt_choice {rules : List (Rule α)} {label : Option String}
    (h : (choice (rule :: rules) label c).StopsAt place) :
    ∃ r ∈ rule :: rules, (r c).StopsAt place := by
  induction rules generalizing rule with
  | nil => exact ⟨rule, List.mem_cons_self, Outcome.stopsAt_relabel.mp h⟩
  | cons next rules ih =>
    rcases stopsAt_choice_cons h with h | ⟨-, h⟩
    · exact ⟨rule, List.mem_cons_self, h⟩
    · obtain ⟨r, hr, h⟩ := ih h
      exact ⟨r, List.mem_cons_of_mem _ hr, h⟩

theorem stopsAt_peek (h : (peek rule c).StopsAt place) : (rule c).StopsAt place := by
  unfold peek at h
  cases hrule : rule c with
  | matched v rest =>
    rw [hrule] at h
    cases h
  | missed place' expected | failed place' expected blamed =>
    rw [hrule] at h
    exact h

theorem matched_of_choice {rules : List (Rule α)} {label : Option String} {v : α}
    (h : choice rules label c = .matched v rest) : ∃ r ∈ rules, r c = .matched v rest := by
  induction rules with
  | nil => cases h
  | cons rule rules ih =>
    rcases choice_cons_matched h with h | ⟨-, h⟩
    · exact ⟨rule, List.mem_cons_self, h⟩
    · obtain ⟨r, hr, h⟩ := ih h
      exact ⟨r, List.mem_cons_of_mem _ hr, h⟩

theorem stopsAt_opt (h : (opt rule c).StopsAt place) : (rule c).StopsAt place := by
  unfold opt at h
  cases hrule : rule c with
  | failed place' expected blamed =>
    rw [hrule] at h
    cases h
    exact .failed
  | matched v rest | missed place' expected =>
    rw [hrule] at h
    cases h

/-! ## What is read, whatever the value -/

/-- With the first text ahead, and then the second one, the rule reads exactly the first one. -/
abbrev Consumes (rule : Rule α) (cs k : List Char) : Prop := rule.Accepts cs k fun _ => True

section

variable {rule' : Rule β} {cs ds k : List Char}

theorem consumes_both {second : Rule β} (hrule : rule.Consumes cs (ds ++ k))
    (hsecond : second.Consumes ds k) : (both rule second).Consumes (cs ++ ds) k :=
  accepts_mono (accepts_both hrule hsecond) fun _ _ => trivial

/-- A rule that advances reads something. -/
theorem Advances.consumes_ne_nil (hrule : rule.Advances) (h : rule.Consumes cs k) : cs ≠ [] := by
  rintro rfl
  have hc := Cursor.within_ofText k
  obtain ⟨v, hv, -⟩ := h (Cursor.ofText k) hc rfl
  have hpos := (hrule _ v _ hc hv).2
  rw [List.length_nil, Cursor.advance_zero] at hpos
  exact absurd hpos (Int.lt_irrefl _)

theorem consumes_many_nil (h : rule.Refuses k) : (many rule).Consumes [] k := by
  intro c hc hahead
  refine ⟨[], ?_, trivial⟩
  rw [List.length_nil, Cursor.advance_zero]
  exact many_of_misses (h c hc hahead)

theorem consumes_many_cons (hadvances : rule.Advances) (hfirst : rule.Consumes cs (ds ++ k))
    (hothers : (many rule).Consumes ds k) : (many rule).Consumes (cs ++ ds) k := by
  intro c hc hahead
  rw [List.append_assoc] at hahead
  obtain ⟨v, hv, -⟩ := hfirst c hc hahead
  obtain ⟨vs, hvs, -⟩ :=
    hothers _ ((hc.reads hahead).within hc) (hc.ahead_advance hahead)
  refine ⟨v :: vs, ?_, trivial⟩
  rw [hadvances.many_of_matched hc hv, hvs, Cursor.advance_advance, List.length_append]
  rfl

end

/-! ## Comparing two rules -/

/-- What the first rule has read where it stops can be completed, so that the second one reads it
before each text that `F` allows at the end of a text. `K` relates the texts ahead, before and now;
at the end of a text it allows what may stand anywhere. All this is promised only if the second rule
goes `deeper`: otherwise what is one level too many cannot be completed. -/
structure ResumableIf (deeper : Prop) (F K : List Char → List Char → Prop) (rule : Rule α)
    (rule' : Rule β) : Prop where
  resumes : ∀ {c place}, deeper → c.Within → (rule c).StopsAt place → ∃ cs x, c.ReadsTo cs place ∧
    ∀ l, F [] l → K c.ahead (cs ++ (x ++ l)) ∧ rule'.Consumes (cs ++ x) l
  fills : deeper → ∃ d, ∀ l, F [] l → K [] (d ++ l) ∧ rule'.Consumes d l

/-- In any case the second rule reads what the first one reads, before each text that `F` allows
where the text behind stood. -/
structure ViableIf (deeper : Prop) (F K : List Char → List Char → Prop) (rule : Rule α)
    (rule' : Rule β) : Prop extends ResumableIf deeper F K rule rule' where
  stays : ∀ {c v rest}, c.Within → rule c = .matched v rest → ∃ cs, c.Reads cs rest ∧
    ∀ l, F rest.ahead l → K c.ahead (cs ++ l) ∧ rule'.Consumes cs l

/-- The second rule does go deeper. -/
abbrev Viable (F K : List Char → List Char → Prop) (rule : Rule α) (rule' : Rule β) : Prop :=
  ViableIf True F K rule rule'

/-- Nothing is asked of the text behind. -/
def Anything (_ _ : List Char) : Prop := True

section

variable {deeper : Prop} {F G K F' K' : List Char → List Char → Prop} {rule' : Rule β}
  {context : String}

theorem ResumableIf.mono (h : ResumableIf deeper F K rule rule') (hF : ∀ a b, F' a b → F a b)
    (hK : ∀ a b, K a b → K' a b) : ResumableIf deeper F' K' rule rule' where
  resumes hdeeper hc hstop := by
    obtain ⟨cs, x, hreads, hx⟩ := h.resumes hdeeper hc hstop
    exact ⟨cs, x, hreads, fun l hl => (hx l (hF _ _ hl)).imp_left (hK _ _)⟩
  fills hdeeper := by
    obtain ⟨d, hd⟩ := h.fills hdeeper
    exact ⟨d, fun l hl => (hd l (hF _ _ hl)).imp_left (hK _ _)⟩

theorem ViableIf.mono (h : ViableIf deeper F K rule rule') (hF : ∀ a b, F' a b → F a b)
    (hK : ∀ a b, K a b → K' a b) : ViableIf deeper F' K' rule rule' where
  toResumableIf := h.toResumableIf.mono hF hK
  stays hc hmatch := by
    obtain ⟨cs, hreads, hcs⟩ := h.stays hc hmatch
    exact ⟨cs, hreads, fun l hl => (hcs l (hF _ _ hl)).imp_left (hK _ _)⟩

/-- What the second rule reads another one may read as well. -/
theorem ResumableIf.trans {after : Rule γ} (h : ResumableIf deeper F K rule rule')
    (hafter : ∀ cs l, rule'.Consumes cs l → after.Consumes cs l) :
    ResumableIf deeper F K rule after where
  resumes hdeeper hc hstop := by
    obtain ⟨cs, x, hreads, hx⟩ := h.resumes hdeeper hc hstop
    exact ⟨cs, x, hreads, fun l hl => (hx l hl).imp_right (hafter _ _)⟩
  fills hdeeper := by
    obtain ⟨d, hd⟩ := h.fills hdeeper
    exact ⟨d, fun l hl => (hd l hl).imp_right (hafter _ _)⟩

theorem ViableIf.trans {after : Rule γ} (h : ViableIf deeper F K rule rule')
    (hafter : ∀ cs l, rule'.Consumes cs l → after.Consumes cs l) :
    ViableIf deeper F K rule after where
  toResumableIf := h.toResumableIf.trans hafter
  stays hc hmatch := by
    obtain ⟨cs, hreads, hcs⟩ := h.stays hc hmatch
    exact ⟨cs, hreads, fun l hl => (hcs l hl).imp_right (hafter _ _)⟩

/-- Another rule that comes to the same stops. -/
theorem ResumableIf.of_stops {before : Rule γ} (h : ResumableIf deeper F K rule rule')
    (hstop : ∀ {c place}, c.Within → (before c).StopsAt place → (rule c).StopsAt place) :
    ResumableIf deeper F K before rule' where
  resumes hdeeper hc hstopped := h.resumes hdeeper hc (hstop hc hstopped)
  fills hdeeper := h.fills hdeeper

/-- Another rule that comes to the same matches and stops. -/
theorem ViableIf.of_outcomes {before : Rule γ} (h : ViableIf deeper F K rule rule')
    (hmatch : ∀ {c v rest}, c.Within → before c = .matched v rest → ∃ u, rule c = .matched u rest)
    (hstop : ∀ {c place}, c.Within → (before c).StopsAt place → (rule c).StopsAt place) :
    ViableIf deeper F K before rule' where
  toResumableIf := h.toResumableIf.of_stops hstop
  stays hc hmatched := by
    obtain ⟨u, hu⟩ := hmatch hc hmatched
    exact h.stays hc hu

theorem viable_map {f : α → γ} {g : β → δ} (h : ViableIf deeper F K rule rule') :
    ViableIf deeper F K (map f rule) (map g rule') := by
  refine (h.of_outcomes (fun _ hmatch => ?_) fun _ hstop => Outcome.stopsAt_map hstop).trans
    fun _ _ hconsumes => accepts_map hconsumes
  obtain ⟨a, ha, -⟩ := map_matched.mp hmatch
  exact ⟨a, ha⟩

theorem viable_cut {context' : String} (h : ViableIf deeper F K rule rule') :
    ViableIf deeper F K (cut rule context) (cut rule' context') :=
  (h.of_outcomes (fun _ hmatch => ⟨_, cut_matched.mp hmatch⟩) fun _ hstop =>
    stopsAt_cut hstop).trans fun _ _ hconsumes => accepts_cut hconsumes

/-- What is known about the text ahead of the second rule is what the first one asks of the text
behind it. -/
theorem resumable_both {second : Rule γ} {second' : Rule δ}
    (hfirst : ViableIf deeper G K rule rule') (hsecond : ResumableIf deeper F G second second') :
    ResumableIf deeper F K (both rule second) (both rule' second') where
  resumes {c place} hdeeper hc hstop := by
    rcases Outcome.stopsAt_bind hstop with hstop | ⟨a, mid, hrule, hstop⟩
    · obtain ⟨cs, x, hcs, hresumes⟩ := hfirst.resumes hdeeper hc hstop
      obtain ⟨d, hfills⟩ := hsecond.fills hdeeper
      refine ⟨cs, x ++ d, hcs, fun l hl => ?_⟩
      obtain ⟨hG, hconsumes'⟩ := hfills l hl
      obtain ⟨hK, hconsumes⟩ := hresumes (d ++ l) hG
      refine ⟨List.append_assoc x d l ▸ hK, ?_⟩
      rw [← List.append_assoc cs x d]
      exact consumes_both hconsumes hconsumes'
    · obtain ⟨cs, hcs, hstays⟩ := hfirst.stays hc hrule
      obtain ⟨ds, x, hds, hresumes⟩ :=
        hsecond.resumes hdeeper (hcs.within hc) (Outcome.stopsAt_map hstop)
      refine ⟨cs ++ ds, x, hcs.trans_to hds, fun l hl => ?_⟩
      obtain ⟨hG, hconsumes'⟩ := hresumes l hl
      rw [← List.append_assoc] at hG
      obtain ⟨hK, hconsumes⟩ := hstays (ds ++ x ++ l) hG
      refine ⟨?_, ?_⟩
      · rw [List.append_assoc cs, ← List.append_assoc ds]
        exact hK
      · rw [List.append_assoc cs]
        exact consumes_both hconsumes hconsumes'
  fills hdeeper := by
    obtain ⟨d, hfills⟩ := hfirst.fills hdeeper
    obtain ⟨e, hfills'⟩ := hsecond.fills hdeeper
    refine ⟨d ++ e, fun l hl => ?_⟩
    obtain ⟨hG, hconsumes'⟩ := hfills' l hl
    obtain ⟨hK, hconsumes⟩ := hfills (e ++ l) hG
    exact ⟨List.append_assoc d e l ▸ hK, consumes_both hconsumes hconsumes'⟩

theorem viable_both {second : Rule γ} {second' : Rule δ}
    (hfirst : ViableIf deeper G K rule rule') (hsecond : ViableIf deeper F G second second') :
    ViableIf deeper F K (both rule second) (both rule' second') where
  toResumableIf := resumable_both hfirst hsecond.toResumableIf
  stays hc hmatch := by
    obtain ⟨mid, hrule, hnext⟩ := both_matched.mp hmatch
    obtain ⟨cs, hcs, hstays⟩ := hfirst.stays hc hrule
    obtain ⟨ds, hds, hstays'⟩ := hsecond.stays (hcs.within hc) hnext
    refine ⟨cs ++ ds, hcs.trans hds, fun l hl => ?_⟩
    obtain ⟨hG, hconsumes'⟩ := hstays' l hl
    obtain ⟨hK, hconsumes⟩ := hstays (ds ++ l) hG
    exact ⟨List.append_assoc cs ds l ▸ hK, consumes_both hconsumes hconsumes'⟩

theorem viable_preceded {before : Rule γ} {before' : Rule δ}
    (hbefore : ViableIf deeper G K before before') (h : ViableIf deeper F G rule rule') :
    ViableIf deeper F K (preceded before rule) (preceded before' rule') :=
  viable_map (viable_both hbefore h)

theorem viable_terminated {after : Rule γ} {after' : Rule δ} (h : ViableIf deeper G K rule rule')
    (hafter : ViableIf deeper F G after after') :
    ViableIf deeper F K (terminated rule after) (terminated rule' after') :=
  viable_map (viable_both h hafter)

theorem resumable_choice {rules : List (Rule α)} {label : Option String}
    (hrules : ∀ r ∈ rule :: rules, ResumableIf deeper F K r rule') :
    ResumableIf deeper F K (choice (rule :: rules) label) rule' where
  resumes hdeeper hc hstop := by
    obtain ⟨r, hr, hstop⟩ := stopsAt_choice hstop
    exact (hrules r hr).resumes hdeeper hc hstop
  fills hdeeper := (hrules rule List.mem_cons_self).fills hdeeper

theorem viable_choice {rules : List (Rule α)} {label : Option String}
    (hrules : ∀ r ∈ rule :: rules, ViableIf deeper F K r rule') :
    ViableIf deeper F K (choice (rule :: rules) label) rule' where
  toResumableIf := resumable_choice fun r hr => (hrules r hr).toResumableIf
  stays hc hmatch := by
    obtain ⟨r, hr, hmatch⟩ := matched_of_choice hmatch
    exact (hrules r hr).stays hc hmatch

theorem viable_opt (h : ViableIf deeper G K rule rule') (hFG : ∀ a b, F a b → G a b)
    (hFK : ∀ a b, F a b → K a b) (hrefuses : ∀ a b, F a b → rule'.Refuses b) :
    ViableIf deeper F K (opt rule) (opt rule') where
  stays {c v rest} hc hmatch := by
    rcases opt_matched hmatch with ⟨a, -, hrule⟩ | ⟨-, rfl, -⟩
    · obtain ⟨cs, hcs, hstays⟩ := h.stays hc hrule
      exact ⟨cs, hcs, fun l hl => (hstays l (hFG _ _ hl)).imp_right fun hconsumes =>
        accepts_opt hconsumes⟩
    · exact ⟨[], Cursor.Reads.refl _, fun l hl => ⟨hFK _ _ hl,
        accepts_mono (accepts_opt_none (hrefuses _ _ hl)) fun _ _ => trivial⟩⟩
  resumes hdeeper hc hstop := by
    obtain ⟨cs, x, hcs, hresumes⟩ := h.resumes hdeeper hc (stopsAt_opt hstop)
    exact ⟨cs, x, hcs, fun l hl => (hresumes l (hFG _ _ hl)).imp_right fun hconsumes =>
      accepts_opt hconsumes⟩
  fills _ := ⟨[], fun l hl => ⟨hFK _ _ hl,
    accepts_mono (accepts_opt_none (hrefuses _ _ hl)) fun _ _ => trivial⟩⟩

/-! ## Repetition -/

/-- Behind a match stands a further one, or what ends the repetition. It is enough that what is read
before a further match or a failure stays what it is. -/
theorem resumable_many (h : ResumableIf deeper G K rule rule')
    (hstays : ∀ {c v rest}, c.Within → rule c = .matched v rest → ¬ MissesAt rule rest →
      ∃ cs, c.Reads cs rest ∧ ∀ l, G rest.ahead l → K c.ahead (cs ++ l) ∧ rule'.Consumes cs l)
    (hadvances : rule.Advances) (hadvances' : rule'.Advances) (hFK : ∀ a b, F a b → K a b)
    (hKG : ∀ a b, K a b → G a b) (hrefuses : ∀ a b, F a b → rule'.Refuses b) :
    ResumableIf deeper F K (many rule) (many rule') where
  resumes {c place} hdeeper hc hstop := by
    induction c, hc using hadvances.induction with
    | step c hc ih =>
      cases hrule : rule c with
      | missed place' expected =>
        rw [many_of_misses ⟨_, _, hrule⟩] at hstop
        cases hstop
      | failed place' expected blamed =>
        rw [many_of_failed hrule] at hstop
        have hstopped : (rule c).StopsAt place := by
          rw [hrule]
          cases hstop
          exact .failed
        obtain ⟨cs, x, hcs, hresumes⟩ := h.resumes hdeeper hc hstopped
        refine ⟨cs, x, hcs, fun l hl => ?_⟩
        obtain ⟨hK, hfirst⟩ := hresumes l (hKG _ _ (hFK _ _ hl))
        refine ⟨hK, List.append_nil (cs ++ x) ▸ ?_⟩
        exact consumes_many_cons hadvances' hfirst (consumes_many_nil (hrefuses _ _ hl))
      | matched v mid =>
        rw [hadvances.many_of_matched hc hrule] at hstop
        have hmore : ¬ MissesAt rule mid := by
          intro hmiss
          rw [many_of_misses hmiss] at hstop
          cases hstop
        obtain ⟨cs, hcs, hstays⟩ := hstays hc hrule hmore
        obtain ⟨ds, x, hds, hothers⟩ :=
          ih v mid (hcs.within hc) hrule (Outcome.stopsAt_map hstop)
        refine ⟨cs ++ ds, x, hcs.trans_to hds, fun l hl => ?_⟩
        obtain ⟨hmid, hmore⟩ := hothers l hl
        rw [← List.append_assoc] at hmid
        obtain ⟨hK, hfirst⟩ := hstays (ds ++ x ++ l) (hKG _ _ hmid)
        refine ⟨?_, ?_⟩
        · rw [List.append_assoc cs, ← List.append_assoc ds]
          exact hK
        · rw [List.append_assoc cs]
          exact consumes_many_cons hadvances' hfirst hmore
  fills _ := ⟨[], fun l hl => ⟨hFK _ _ hl, consumes_many_nil (hrefuses _ _ hl)⟩⟩

theorem viable_many (h : ViableIf deeper G K rule rule') (hadvances : rule.Advances)
    (hadvances' : rule'.Advances) (hFK : ∀ a b, F a b → K a b) (hKG : ∀ a b, K a b → G a b)
    (hrefuses : ∀ a b, F a b → rule'.Refuses b) : ViableIf deeper F K (many rule) (many rule') where
  toResumableIf := resumable_many h.toResumableIf (fun hc hmatch _ => h.stays hc hmatch) hadvances
    hadvances' hFK hKG hrefuses
  stays {c vs rest} hc hmatch := by
    induction c, hc using hadvances.induction generalizing vs with
    | step c hc ih =>
      cases hrule : rule c with
      | missed place expected =>
        rw [many_of_misses ⟨_, _, hrule⟩] at hmatch
        cases hmatch
        exact ⟨[], Cursor.Reads.refl _, fun l hl =>
          ⟨hFK _ _ hl, consumes_many_nil (hrefuses _ _ hl)⟩⟩
      | failed place expected blamed =>
        rw [many_of_failed hrule] at hmatch
        cases hmatch
      | matched v mid =>
        rw [hadvances.many_of_matched hc hrule] at hmatch
        obtain ⟨us, hus, -⟩ := Outcome.map_matched.mp hmatch
        obtain ⟨cs, hcs, hstays⟩ := h.stays hc hrule
        obtain ⟨ds, hds, hothers⟩ := ih v mid (hcs.within hc) hrule hus
        refine ⟨cs ++ ds, hcs.trans hds, fun l hl => ?_⟩
        obtain ⟨hmid, hmore⟩ := hothers l hl
        obtain ⟨hK, hfirst⟩ := hstays (ds ++ l) (hKG _ _ hmid)
        exact ⟨List.append_assoc cs ds l ▸ hK, consumes_many_cons hadvances' hfirst hmore⟩

/-- A value that is made of what two rules read. -/
theorem bind_map_eq {second : Rule β} {f : α → β → γ} :
    ((rule c).bind fun a rest => (second rest).map (f a))
      = map (fun found => f found.1 found.2) (both rule second) c := by
  unfold map both
  cases rule c with
  | matched a rest => dsimp only [Outcome.bind]; cases second rest <;> rfl
  | _ => rfl

theorem many1_eq : many1 rule = map (fun v => OneOrMore.mk v.1 v.2) (both rule (many rule)) :=
  funext fun _ => bind_map_eq

theorem viable_many1 (h : ViableIf deeper G K rule rule') (hadvances : rule.Advances)
    (hadvances' : rule'.Advances) (hFG : ∀ a b, F a b → G a b) (hKG : ∀ a b, K a b → G a b)
    (hrefuses : ∀ a b, F a b → rule'.Refuses b) :
    ViableIf deeper F K (many1 rule) (many1 rule') := by
  have hmany : ViableIf deeper F G (many rule) (many rule') :=
    viable_many (h.mono (fun _ _ => id) hKG) hadvances hadvances' hFG (fun _ _ => id) hrefuses
  rw [many1_eq, many1_eq]
  exact viable_map (viable_both h hmany)

end

/-- A separator stands behind a value, or what ends the list. -/
theorem viable_separated1 {F G H K : List Char → List Char → Prop} {rule' : Rule β}
    {separator : Rule γ} {separator' : Rule δ} {context context' : String}
    (h : ViableIf deeper G K rule rule') (hseparator : ViableIf deeper K H separator separator')
    (hproceeds : rule.Proceeds) (hproceeds' : rule'.Proceeds) (hadvances : separator.Advances)
    (hadvances' : separator'.Advances) (hFG : ∀ a b, F a b → G a b) (hHG : ∀ a b, H a b → G a b)
    (hrefuses : ∀ a b, F a b → separator'.Refuses b) :
    ViableIf deeper F K (separated1 rule separator context)
      (separated1 rule' separator' context') := by
  have hstep : ViableIf deeper G G (preceded separator (cut rule context))
      (preceded separator' (cut rule' context')) :=
    (viable_preceded hseparator (viable_cut h)).mono (fun _ _ => id) hHG
  have hmany : ViableIf deeper F G (many (preceded separator (cut rule context)))
      (many (preceded separator' (cut rule' context'))) :=
    viable_many hstep (advances_map (advances_both hadvances (ensures_cut hproceeds)))
      (advances_map (advances_both hadvances' (ensures_cut hproceeds'))) hFG (fun _ _ => id)
      fun a b hF => map_refuses (both_refuses_first (hrefuses a b hF))
  have hlist := viable_map (f := fun v => OneOrMore.mk v.1 v.2)
    (g := fun v => OneOrMore.mk v.1 v.2) (viable_both h hmany)
  refine (hlist.of_outcomes (fun {_ v _} hc hmatch => ⟨v, ?_⟩) fun hc hstop => ?_).trans ?_
  · exact (separated1_eq hproceeds hadvances hc).symm.trans hmatch
  · exact separated1_eq hproceeds hadvances hc ▸ hstop
  · intro cs l hconsumes c hc hahead
    rw [separated1_eq hproceeds' hadvances' hc]
    exact hconsumes c hc hahead

end Rule

end LessSyntax
