import LessSyntax.Proofs.ItemKinds
import LessSyntax.Proofs.SelectorViability
import LessSyntax.Proofs.ValueViability
import LessSyntax.Proofs.WholeSource

/-!
# Ends that can be completed

An item that ends without a semicolon ends before a brace or at the end of the text, and what stands
behind it decides where. So the same item is read again only before that brace, or once a semicolon
stands behind it. Such an item is the last one, whether of a block or of the text.

* `Follows`: what may stand behind an item.
* `ViableItemIf`: how two rules for what ends like an item are compared, with one lemma for each way
  to combine rules: `viableItem_map`, `viableItem_cut`, `viableItem_both`, `viableItem_choice`,
  `viableItem_many`.
* `terminator_viable`, `important_viable`: the ends of items.
-/

namespace LessSyntax.Grammar

open Rule

variable {α β γ δ : Type} {s : Settings} {lineComments : Bool} {w k l : List Char} {deeper : Prop}

/-! ## What may stand behind an item -/

/-- What may stand behind an item, where the first text stood. An item that is closed, by a
semicolon or a block, may have anything behind it that `F` allows. One that is left open has the
same brace behind it, or else a semicolon, which is read with it, or else the text ends there. -/
inductive Follows (lineComments : Bool) (F : List Char → List Char → Prop) :
    Bool → List Char → List Char → List Char → Prop
  | closed {a l : List Char} (h : F a l) : Follows lineComments F false a [] l
  | brace {w k l : List Char} (hrun : TriviaRun lineComments w ('}' :: k)) :
    Follows lineComments F true (w ++ '}' :: k) [] (w ++ '}' :: l)
  | semicolon {w k l : List Char} (hrun : TriviaRun lineComments w k) (h : F [] l) :
    Follows lineComments F true (w ++ k) (w ++ ['\n', ';']) l
  | ended {w k : List Char} (hrun : TriviaRun lineComments w k) (h : F [] []) :
    Follows lineComments F true (w ++ k) w []

variable {F F' G K K' : List Char → List Char → Prop} {rule : Rule α} {rule' : Rule β}
  {isOpen : Bool}

theorem Follows.mono (hF : ∀ a b, F' a b → F a b) {a x : List Char}
    (h : Follows lineComments F' isOpen a x l) : Follows lineComments F isOpen a x l := by
  cases h with
  | closed h => exact .closed (hF _ _ h)
  | brace hrun => exact .brace hrun
  | semicolon hrun h => exact .semicolon hrun (hF _ _ h)
  | ended hrun h => exact .ended hrun (hF _ _ h)

theorem next_brace (hrun : TriviaRun lineComments w ('}' :: k)) (l : List Char) :
    Next lineComments (· = '}') (w ++ '}' :: l) :=
  ⟨w, '}' :: l, rfl, hrun.before_any (List.cons_ne_nil _ _) _,
    noTrivia_cons (by decide) (by decide), head_cons rfl⟩

/-- Behind an item that is left open stands a brace, or what may stand at the end of a text. -/
theorem Follows.behind_open {a x : List Char} (h : Follows lineComments F true a x l) :
    F [] l ∨ Next lineComments (· = '}') l := by
  cases h with
  | semicolon _ h | ended _ h => exact .inl h
  | @brace w k l hrun => exact .inr (next_brace hrun l)

/-- Before a brace of its own an item may stand in either case. -/
theorem follows_brace (hrun : TriviaRun lineComments w ('}' :: k))
    (hF : F (w ++ '}' :: k) (w ++ '}' :: l)) (isOpen : Bool) :
    Follows lineComments F isOpen (w ++ '}' :: k) [] (w ++ '}' :: l) := by
  cases isOpen with
  | false => exact .closed hF
  | true => exact .brace hrun

/-- A newline behind a run of trivia, or a newline and a semicolon, keeps the item what it is. -/
theorem follows_run (hrun : TriviaRun lineComments w k) (isOpen : Bool) :
    ∃ x y z, w ++ x = y ++ z ∧ (∀ l, TriviaRun lineComments z l) ∧
      ∀ l, F (w ++ k) (w ++ '\n' :: l) → F [] l →
        Follows lineComments F isOpen (w ++ k) y (z ++ l) := by
  cases isOpen with
  | false =>
    refine ⟨['\n'], [], w ++ ['\n'], rfl, fun l => hrun.newline l, fun l hl _ => .closed ?_⟩
    rw [List.append_assoc]
    exact hl
  | true => exact ⟨['\n', ';'], w ++ ['\n', ';'], [], by simp, fun _ => .nil, fun l _ hl =>
      .semicolon hrun hl⟩

/-! ## Comparing rules for items -/

/-- What the first rule reads, the second one reads too, with what has to end it. What is left open
stands before a brace, or at the end of the text. -/
structure ViableItemIf (deeper : Prop) (lineComments : Bool) (F K : List Char → List Char → Prop)
    (rule : Rule α) (rule' : Rule β) : Prop extends ResumableIf deeper F K rule rule' where
  stays : ∀ {c v rest}, c.Within → rule c = .matched v rest → ∃ cs isOpen, c.Reads cs rest ∧
    (isOpen = true → Next lineComments (· = '}') rest.ahead) ∧
      ∀ x l, Follows lineComments F isOpen rest.ahead x l →
        K c.ahead (cs ++ (x ++ l)) ∧ rule'.Consumes (cs ++ x) l

/-- The second rule does go deeper. -/
abbrev ViableItem (lineComments : Bool) (F K : List Char → List Char → Prop) (rule : Rule α)
    (rule' : Rule β) : Prop := ViableItemIf True lineComments F K rule rule'

theorem viableItem_of_viable (h : ViableIf deeper F K rule rule') :
    ViableItemIf deeper lineComments F K rule rule' where
  toResumableIf := h.toResumableIf
  stays hc hmatch := by
    obtain ⟨cs, hcs, hstays⟩ := h.stays hc hmatch
    refine ⟨cs, false, hcs, nofun, ?_⟩
    rintro _ l ⟨hl⟩
    rw [List.append_nil]
    exact hstays l hl

theorem ViableItemIf.mono (h : ViableItemIf deeper lineComments F K rule rule')
    (hF : ∀ a b, F' a b → F a b) (hK : ∀ a b, K a b → K' a b) :
    ViableItemIf deeper lineComments F' K' rule rule' where
  toResumableIf := h.toResumableIf.mono hF hK
  stays hc hmatch := by
    obtain ⟨cs, isOpen, hcs, hbrace, hstays⟩ := h.stays hc hmatch
    exact ⟨cs, isOpen, hcs, hbrace, fun x l hl => (hstays x l (hl.mono hF)).imp_left (hK _ _)⟩

theorem ViableItemIf.trans {after : Rule γ} (h : ViableItemIf deeper lineComments F K rule rule')
    (hafter : ∀ cs l, rule'.Consumes cs l → after.Consumes cs l) :
    ViableItemIf deeper lineComments F K rule after where
  toResumableIf := h.toResumableIf.trans hafter
  stays hc hmatch := by
    obtain ⟨cs, isOpen, hcs, hbrace, hstays⟩ := h.stays hc hmatch
    exact ⟨cs, isOpen, hcs, hbrace, fun x l hl => (hstays x l hl).imp_right (hafter _ _)⟩

/-- Another rule that comes to the same matches and stops. -/
theorem ViableItemIf.of_outcomes {before : Rule γ}
    (h : ViableItemIf deeper lineComments F K rule rule')
    (hmatch : ∀ {c v rest}, c.Within → before c = .matched v rest → ∃ u, rule c = .matched u rest)
    (hstop : ∀ {c place}, c.Within → (before c).StopsAt place → (rule c).StopsAt place) :
    ViableItemIf deeper lineComments F K before rule' where
  toResumableIf := h.toResumableIf.of_stops hstop
  stays hc hmatched := by
    obtain ⟨u, hu⟩ := hmatch hc hmatched
    exact h.stays hc hu

theorem viableItem_map {f : α → γ} {g : β → δ}
    (h : ViableItemIf deeper lineComments F K rule rule') :
    ViableItemIf deeper lineComments F K (map f rule) (map g rule') := by
  refine (h.of_outcomes (fun _ hmatch => ?_) fun _ hstop => Outcome.stopsAt_map hstop).trans
    fun _ _ hconsumes => accepts_map hconsumes
  obtain ⟨a, ha, -⟩ := map_matched.mp hmatch
  exact ⟨a, ha⟩

theorem viableItem_cut {context context' : String}
    (h : ViableItemIf deeper lineComments F K rule rule') :
    ViableItemIf deeper lineComments F K (cut rule context) (cut rule' context') :=
  (h.of_outcomes (fun _ hmatch => ⟨_, cut_matched.mp hmatch⟩) fun _ hstop =>
    stopsAt_cut hstop).trans fun _ _ hconsumes => accepts_cut hconsumes

/-- Only the end of what is read may be left open. -/
theorem viableItem_both {second : Rule γ} {second' : Rule δ}
    (hfirst : ViableIf deeper G K rule rule')
    (hsecond : ViableItemIf deeper lineComments F G second second') :
    ViableItemIf deeper lineComments F K (both rule second) (both rule' second') where
  toResumableIf := resumable_both hfirst hsecond.toResumableIf
  stays hc hmatch := by
    obtain ⟨mid, hrule, hnext⟩ := both_matched.mp hmatch
    obtain ⟨cs, hcs, hstays⟩ := hfirst.stays hc hrule
    obtain ⟨ds, isOpen, hds, hbrace, hstays'⟩ := hsecond.stays (hcs.within hc) hnext
    refine ⟨cs ++ ds, isOpen, hcs.trans hds, hbrace, fun x l hl => ?_⟩
    obtain ⟨hG, hconsumes'⟩ := hstays' x l hl
    rw [← List.append_assoc] at hG
    obtain ⟨hK, hconsumes⟩ := hstays (ds ++ x ++ l) hG
    rw [List.append_assoc cs, List.append_assoc cs, ← List.append_assoc ds]
    exact ⟨hK, consumes_both hconsumes hconsumes'⟩

theorem viableItem_terminated {after : Rule γ} {after' : Rule δ}
    (h : ViableIf deeper G K rule rule')
    (hafter : ViableItemIf deeper lineComments F G after after') :
    ViableItemIf deeper lineComments F K (terminated rule after) (terminated rule' after') :=
  viableItem_map (viableItem_both h hafter)

theorem viableItem_choice {rules : List (Rule α)} {label : Option String}
    (hrules : ∀ r ∈ rule :: rules, ViableItemIf deeper lineComments F K r rule') :
    ViableItemIf deeper lineComments F K (choice (rule :: rules) label) rule' where
  toResumableIf := resumable_choice fun r hr => (hrules r hr).toResumableIf
  stays hc hmatch := by
    obtain ⟨r, hr, hmatch⟩ := matched_of_choice hmatch
    exact (hrules r hr).stays hc hmatch

/-- An item that is left open is the last one, since no item begins behind it. -/
theorem viableItem_many (h : ViableItemIf deeper lineComments G K rule rule')
    (hadvances : rule.Advances) (hadvances' : rule'.Advances) (hFG : ∀ a b, F a b → G a b)
    (hFK : ∀ a b, F a b → K a b)
    (hKG : ∀ a b, K a b → G a b)
    (hbrace : ∀ b, Next lineComments (· = '}') b → rule.Refuses b)
    (hbrace' : ∀ b, Next lineComments (· = '}') b → rule'.Refuses b)
    (hrefuses : ∀ a b, F a b → rule'.Refuses b) :
    ViableItemIf deeper lineComments F K (many rule) (many rule') where
  toResumableIf := by
    refine resumable_many h.toResumableIf (fun {c v rest} hc hmatch hmore => ?_) hadvances
      hadvances' hFK hKG hrefuses
    obtain ⟨cs, isOpen, hcs, hnext, hstays⟩ := h.stays hc hmatch
    cases isOpen with
    | true => exact absurd (hbrace _ (hnext rfl) rest (hcs.within hc) rfl) hmore
    | false => exact ⟨cs, hcs, fun l hl => by simpa using hstays [] l (.closed hl)⟩
  stays {c vs rest} hc hmatch := by
    induction c, hc using hadvances.induction generalizing vs with
    | step c hc ih =>
      cases hrule : rule c with
      | missed place expected =>
        rw [many_of_misses ⟨_, _, hrule⟩] at hmatch
        cases hmatch
        refine ⟨[], false, Cursor.Reads.refl _, nofun, ?_⟩
        rintro _ l ⟨hl⟩
        exact ⟨hFK _ _ hl, consumes_many_nil (hrefuses _ _ hl)⟩
      | failed place expected blamed =>
        rw [many_of_failed hrule] at hmatch
        cases hmatch
      | matched v mid =>
        rw [hadvances.many_of_matched hc hrule] at hmatch
        obtain ⟨us, hus, -⟩ := Outcome.map_matched.mp hmatch
        obtain ⟨cs, isOpen, hcs, hnext, hstays⟩ := h.stays hc hrule
        cases isOpen with
        | true =>
          rw [many_of_misses (hbrace _ (hnext rfl) mid (hcs.within hc) rfl)] at hus
          cases hus
          refine ⟨cs, true, hcs, hnext, fun x l hl => ?_⟩
          obtain ⟨hK, hfirst⟩ := hstays x l (hl.mono hFG)
          have hlast : rule'.Refuses l := hl.behind_open.elim (hrefuses _ _) (hbrace' _)
          refine ⟨hK, List.append_nil (cs ++ x) ▸ ?_⟩
          exact consumes_many_cons hadvances' hfirst (consumes_many_nil hlast)
        | false =>
          obtain ⟨ds, isOpen, hds, hnext, hothers⟩ := ih v mid (hcs.within hc) hrule hus
          refine ⟨cs ++ ds, isOpen, hcs.trans hds, hnext, fun x l hl => ?_⟩
          obtain ⟨hmid, hmore⟩ := hothers x l hl
          rw [← List.append_assoc] at hmid
          obtain ⟨hK, hfirst⟩ := hstays [] (ds ++ x ++ l) (.closed (hKG _ _ hmid))
          rw [List.append_nil] at hfirst
          rw [List.append_assoc cs, List.append_assoc cs, ← List.append_assoc ds]
          exact ⟨hK, consumes_many_cons hadvances' hfirst hmore⟩

/-! ## The ends of items -/

/-- What stands behind all that an item says. -/
def itemEnds : List Char := [';', '}']

/-- Behind a run of trivia a newline and a semicolon end an item. -/
theorem terminator_run (hrun : TriviaRun s.lineComments w k) (l : List Char) :
    Ahead s.lineComments true (· ∈ itemEnds) (w ++ k) (w ++ '\n' :: ';' :: l) ∧
      (terminator s).Consumes (w ++ ['\n', ';']) l := by
  have hrun' : TriviaRun s.lineComments (w ++ ['\n']) (';' :: l) := hrun.newline _
  have hmark : NoTrivia s.lineComments (';' :: l) := noTrivia_cons (by decide) (by decide)
  have hbreak : Replaces true k ('\n' :: ';' :: l) := .inl (atBreak_newline _)
  have hread : (symbol s [';']).Accepts (w ++ ['\n'] ++ [';']) l fun _ => True :=
    accepts_symbol hrun' hmark (by simp)
  rw [List.append_assoc] at hread
  exact ⟨⟨hbreak.append w, w ++ ['\n'], ';' :: l, by simp, hrun', hmark, head_cons (by decide)⟩,
    accepts_choice_head (accepts_map hread)⟩

/-- Before a brace nothing has to end an item. -/
theorem terminator_beforeBrace (hrun : TriviaRun s.lineComments w ('}' :: k)) (l : List Char) :
    Ahead s.lineComments true (· ∈ itemEnds) (w ++ '}' :: k) (w ++ '}' :: l) ∧
      (terminator s).Consumes [] (w ++ '}' :: l) := by
  have hsame : Replaces true ('}' :: k) ('}' :: l) := replaces_head (fun _ => by decide) k l
  have hnext := next_brace hrun l
  have hread : (symbol s ['}']).Accepts (w ++ ['}']) l fun _ => True :=
    accepts_symbol (hrun.before_any (List.cons_ne_nil _ _) _)
      (noTrivia_cons (by decide) (by decide)) (by simp)
  have hpeek : (map some (Rule.peek (symbol s ['}']))).Consumes [] (w ++ ['}'] ++ l) :=
    accepts_map (accepts_peek hread)
  rw [List.append_assoc] at hpeek
  have hother : Next s.lineComments (· ≠ ';') (w ++ '}' :: l) :=
    hnext.mono (by rintro _ rfl; decide)
  exact ⟨⟨hsame.append w, hnext.mono (by rintro _ rfl; decide)⟩,
    accepts_choice_tail (map_refuses (symbol_refuses_next hother)) (accepts_choice_head hpeek)⟩

/-- At the end of the text nothing has to end an item either. -/
theorem terminator_ended (hrun : TriviaRun s.lineComments w k) :
    Ahead s.lineComments true (· ∈ itemEnds) (w ++ k) (w ++ []) ∧
      (terminator s).Consumes w [] := by
  have hrun' : TriviaRun s.lineComments w [] := hrun.at_end
  have hbreak : Replaces true k [] := .inl atBreak_nil
  have hnext : ∀ {p : Char → Prop}, Next s.lineComments p (w ++ []) :=
    ⟨w, [], rfl, hrun', noTrivia_nil, nofun⟩
  have hpeek : (Rule.peek (symbol s ['}'])).Refuses (w ++ []) := by
    intro c hc hahead
    obtain ⟨place, expected, hmiss⟩ := symbol_refuses_next hnext c hc hahead
    exact ⟨place, expected, by rw [Rule.peek, hmiss]⟩
  have hend : (token s (endOf "end of input")).Consumes (w ++ []) [] :=
    accepts_token hrun' noTrivia_nil (accepts_endOf _)
  rw [List.append_nil w] at hend
  refine ⟨⟨hbreak.append w, hnext⟩, ?_⟩
  exact accepts_choice_tail (map_refuses (symbol_refuses_next hnext))
    (accepts_choice_tail (map_refuses hpeek) (accepts_choice_head (accepts_map hend)))

/-- Where nothing has been read to end an item. -/
theorem terminator_open {a x : List Char} (h : Follows s.lineComments Anything true a x l) :
    Ahead s.lineComments true (· ∈ itemEnds) a (x ++ l) ∧ (terminator s).Consumes x l := by
  cases h with
  | brace hrun => exact terminator_beforeBrace hrun _
  | @semicolon w k l hrun _ =>
    rw [List.append_assoc]
    exact terminator_run hrun l
  | ended hrun _ => exact terminator_ended hrun

/-- A run of trivia up to the end of the text has been read. -/
theorem Follows.from_end {x : List Char} (hrun : TriviaRun lineComments w [])
    (h : Follows lineComments F true [] x l) : Follows lineComments F true w (w ++ x) l := by
  generalize hnil : ([] : List Char) = a at h
  cases h with
  | brace => simp at hnil
  | semicolon _ h =>
    obtain ⟨rfl, rfl⟩ := List.append_eq_nil_iff.mp hnil.symm
    simpa using Follows.semicolon hrun h
  | ended _ h =>
    obtain ⟨rfl, rfl⟩ := List.append_eq_nil_iff.mp hnil.symm
    simpa using Follows.ended hrun h

theorem endOf_stops {expected : String} {c place : Cursor}
    (h : (endOf expected c).StopsAt place) : place = c := by
  unfold endOf at h
  split at h <;> cases h
  rfl

theorem terminator_stops {c place : Cursor} (hc : c.Within)
    (h : (terminator s c).StopsAt place) : SkipsRun s.lineComments c place := by
  obtain ⟨r, hr, h⟩ := stopsAt_choice h
  simp only [List.mem_cons, List.not_mem_nil, or_false] at hr
  rcases hr with rfl | rfl | rfl
  · exact symbol_stops hc (Outcome.stopsAt_map h)
  · exact symbol_stops hc (stopsAt_peek (Outcome.stopsAt_map h))
  · exact token_stops endOf_stops hc (Outcome.stopsAt_map h)

theorem terminator_viable : ViableItemIf deeper s.lineComments Anything
    (Ahead s.lineComments true (· ∈ itemEnds)) (terminator s) (terminator s) where
  stays {c v rest} hc hmatch := by
    rcases choice_cons_matched hmatch with h | ⟨-, h⟩
    · obtain ⟨t, h, -⟩ := map_matched.mp h
      have hmark : ViableIf deeper Anything (Ahead s.lineComments true (· = ';')) (symbol s [';'])
          (symbol s [';']) := symbol_viable (by decide)
      obtain ⟨cs, hcs, hstays⟩ := hmark.stays hc h
      refine ⟨cs, false, hcs, nofun, ?_⟩
      rintro _ l ⟨hl⟩
      obtain ⟨hahead, hread⟩ := hstays l hl
      rw [List.append_nil]
      exact ⟨hahead.mono (by rintro _ rfl; decide), accepts_choice_head (accepts_map hread)⟩
    rcases choice_cons_matched h with h | ⟨-, h⟩
    · obtain ⟨t, h, -⟩ := map_matched.mp h
      obtain ⟨rfl, stop, h⟩ := peek_matched h
      exact ⟨[], true, .refl _, fun _ => next_of_symbol hc h, fun x l hl => terminator_open hl⟩
    · obtain ⟨_, h, -⟩ := map_matched.mp (relabel_matched.mp h)
      obtain ⟨_, mid, hskip, hend⟩ := Outcome.bind_matched.mp h
      obtain ⟨hreach, w, hw, hrun⟩ := trivia_ensures c _ mid hc hskip
      obtain ⟨rfl, hnil⟩ := endOf_matched (hreach.within hc) hend
      have hahead := hw.ahead
      rw [hnil] at hrun hahead ⊢
      rw [hahead, List.append_nil]
      refine ⟨w, true, hw, fun _ => next_nil, fun x l hl => ?_⟩
      rw [← List.append_assoc]
      exact terminator_open (hl.from_end hrun)
  resumes hdeeper hc hstop := by
    obtain ⟨w, hw, hrun⟩ := terminator_stops hc hstop
    exact ⟨w, ['\n', ';'], hw.to, fun l _ => hw.ahead ▸ terminator_run hrun l⟩
  fills _ := ⟨['\n', ';'], fun l _ => terminator_run (k := []) .nil l⟩

/-! ## Marks of importance -/

theorem importantMark_matched {c rest : Cursor} {v : Bool} (h : importantMark c = .matched v rest) :
    ∃ word, name c = .matched word rest ∧ isLowered importantWord word.chars = true := by
  unfold importantMark at h
  split at h
  · rename_i word stop hname
    split at h
    · rename_i hlower
      cases h
      exact ⟨word, hname, hlower⟩
    · cases h
  · cases h

theorem importantMark_stops {c place : Cursor} (h : (importantMark c).StopsAt place) :
    place = c := by
  unfold importantMark at h
  split at h
  · split at h <;> cases h
    rfl
  · cases h
    rfl

theorem consumes_importantMark {cs : List Char} (his : IsName cs)
    (hword : isLowered importantWord cs = true) (hl : ∀ x ∈ l.head?, isNameChar x = false) :
    importantMark.Consumes cs l := by
  intro c hc hahead
  obtain ⟨word, hname, hchars⟩ := accepts_name his hl c hc hahead
  refine ⟨true, ?_, trivial⟩
  unfold importantMark
  rw [hname]
  dsimp only
  rw [hchars, if_pos hword]

theorem importantMark_lexeme {strict : Bool} {G : Cursor → Prop} :
    Lexeme deeper lineComments strict G (Replaces false) (isNameChar · = true) importantMark
      importantMark where
  stays hc _ hmatch := by
    obtain ⟨word, hname, hword⟩ := importantMark_matched hmatch
    obtain ⟨cs, hreads, his, rfl⟩ := name_matched hc hname
    rw [hreads.chars_next hc] at hword
    obtain ⟨-, -, -, hends⟩ := name_stays hc hname
    refine ⟨cs, his.ne_nil, hreads, fun l hl => ⟨?_, his.free l, ?_⟩⟩
    · exact hreads.ahead ▸ hl.append_of_ne_nil his.ne_nil strict
    · exact consumes_importantMark his hword (hl.stops (by decide) hends)
  resumes hdeeper _ _ hstop := .inl (.of_eq (importantMark_stops hstop))
  fills hdeeper := by
    have his : IsName importantWord := rfl
    exact ⟨importantWord, fun l hl => ⟨his.ne_nil, his.free l,
      consumes_importantMark his (by decide) (replaces_false_nil_stops hl)⟩⟩

/-- The mark, and the word behind it. -/
def importantPair (s : Settings) : Rule (Text × Bool) :=
  both (symbol s ['!']) (token s importantMark)

theorem importantPair_viable :
    ViableIf deeper (Replaces false) (Ahead s.lineComments true (· = '!')) (importantPair s)
      (importantPair s) := by
  have hword : ViableIf deeper (Replaces false) (Ahead s.lineComments true (isNameChar · = true))
      (token s importantMark) (token s importantMark) := token_viable importantMark_lexeme
  have hmark : ViableIf deeper Anything (Ahead s.lineComments true (· = '!')) (symbol s ['!'])
      (symbol s ['!']) := symbol_viable (by decide)
  exact viable_both (hmark.mono (fun _ _ _ => trivial) fun _ _ => id) hword

theorem important_eq (c : Cursor) : important s c = (opt (symbol s ['!']) c).bind fun mark rest =>
    match mark with
    | none => .matched false rest
    | some _ => token s importantMark rest := rfl

/-- Without the mark nothing is read; with it, the word has to follow. -/
theorem important_viable :
    ViableIf deeper (Ahead s.lineComments true (· ∈ itemEnds))
      (Ahead s.lineComments true (· ∈ valueEnds)) (important s) (important s) := by
  have habsent : ∀ a b, Ahead s.lineComments true (· ∈ itemEnds) a b →
      Ahead s.lineComments true (· ∈ valueEnds) a b ∧ (important s).Consumes [] b := by
    intro a b h
    have hother : ∀ x ∈ itemEnds, x ∈ valueEnds ∧ x ≠ '!' := forall_mem_of_all rfl
    refine ⟨h.mono fun x hx => (hother x hx).1, ?_⟩
    exact accepts_mono (accepts_important_absent (h.next.mono fun x hx => (hother x hx).2) [] .nil)
      fun _ _ => trivial
  have hpair : ViableIf deeper (Ahead s.lineComments true (· ∈ itemEnds))
      (Ahead s.lineComments true (· ∈ valueEnds)) (importantPair s) (important s) := by
    refine (importantPair_viable.mono (fun _ _ h => h.1.alike) fun _ _ h =>
      h.mono (by rintro _ rfl; decide)).trans fun cs l hread c hc hahead => ?_
    obtain ⟨⟨t, v⟩, hv, -⟩ := hread c hc hahead
    obtain ⟨mid, hmark, hword⟩ := both_matched.mp hv
    refine ⟨v, ?_, trivial⟩
    rw [important_eq, opt, hmark]
    exact hword
  exact {
    stays := fun {c v rest} hc hmatch => by
      rw [important_eq] at hmatch
      obtain ⟨mark, mid, hmark, hword⟩ := Outcome.bind_matched.mp hmatch
      rcases opt_matched hmark with ⟨t, rfl, hsymbol⟩ | ⟨rfl, rfl, -⟩
      · exact hpair.stays hc (both_matched.mpr ⟨mid, hsymbol, hword⟩ :
          importantPair s c = .matched (t, v) rest)
      · cases hword
        exact ⟨[], .refl _, habsent _⟩
    resumes := fun {c place} hdeeper hc hstop => by
      rw [important_eq] at hstop
      refine hpair.resumes hdeeper hc ?_
      unfold importantPair both
      rcases Outcome.stopsAt_bind hstop with hfirst | ⟨mark, mid, hmark, hword⟩
      · exact (stopsAt_opt hfirst).bind
      · rcases opt_matched hmark with ⟨t, rfl, hsymbol⟩ | ⟨rfl, rfl, -⟩
        · rw [hsymbol]
          exact hword.bind
        · cases hword
    fills _ := ⟨[], habsent []⟩ }

end LessSyntax.Grammar
