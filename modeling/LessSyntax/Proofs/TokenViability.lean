import LessSyntax.Proofs.CommonBeginning
import LessSyntax.Proofs.Viability

/-!
# Tokens that can be completed

A text is completed behind a newline, unless the reading stops within a token. The newline ends a
comment and belongs to no token before it. So what stands behind a token is another text only where
that begins with a newline; else it begins as before.

* `Replaces`: what may stand where another text stood.
* `Ahead`: the same, and what is the next token.
* `Lexeme`: two rules for what stands behind trivia, compared.
* `token_viable`: the same with trivia before them.
* `symbol_viable`, `name_lexeme`, `atName_lexeme`, `nameAfter_lexeme`: marks and names.
-/

namespace LessSyntax.Grammar

open Rule

variable {α β : Type} {lineComments : Bool} {strict : Bool} {p q : Char → Prop}
  {a b k l w : List Char}

/-! ## Texts in place of others -/

/-- The text ends, or a newline stands there. -/
def AtBreak (l : List Char) : Prop := ∀ x ∈ l.head?, x = '\n'

/-- What may be read as part of a number together with what follows it. -/
def signs : List Char := ['+', '-', '.']

/-- The second text may stand where the first one stood: it begins with a newline, or as the first
one does. If it must also go on as the other one behind a sign, no number reaches into it. -/
def Replaces (strict : Bool) (a b : List Char) : Prop :=
  AtBreak b ∨ ∃ x k l, a = x :: k ∧ b = x :: l ∧
    (strict = true → x ∈ signs → AtBreak l ∨ ∃ y m n, k = y :: m ∧ l = y :: n)

theorem atBreak_newline (l : List Char) : AtBreak ('\n' :: l) := head_cons rfl

theorem atBreak_nil : AtBreak [] := nofun

theorem replaces_nil (h : Replaces strict [] b) : AtBreak b := by
  rcases h with h | ⟨x, k, l, hnil, -⟩
  · exact h
  · cases hnil

/-- Behind a shared character the texts need only begin alike. -/
theorem Replaces.cons (h : Replaces strict a b) (x : Char) (strict' : Bool) :
    Replaces strict' (x :: a) (x :: b) := by
  refine .inr ⟨x, a, b, rfl, rfl, fun _ _ => ?_⟩
  rcases h with h | ⟨y, k, l, rfl, rfl, -⟩
  · exact .inl h
  · exact .inr ⟨y, k, l, rfl, rfl⟩

theorem Replaces.append_of_ne_nil (h : Replaces strict a b) {ds : List Char} (hds : ds ≠ [])
    (strict' : Bool) : Replaces strict' (ds ++ a) (ds ++ b) := by
  induction ds generalizing strict' with
  | nil => exact absurd rfl hds
  | cons x ds ih =>
    by_cases hnil : ds = []
    · subst hnil
      exact h.cons x strict'
    · exact (ih hnil strict').cons x strict'

theorem Replaces.append (h : Replaces strict a b) (ds : List Char) :
    Replaces strict (ds ++ a) (ds ++ b) := by
  by_cases hds : ds = []
  · subst hds
    exact h
  · exact h.append_of_ne_nil hds strict

theorem Replaces.refl (a : List Char) : Replaces strict a a := by
  simpa using Replaces.append (.inl atBreak_nil : Replaces strict [] []) a

theorem Replaces.alike (h : Replaces strict a b) : Replaces false a b := by
  rcases h with h | ⟨x, k, l, rfl, rfl, -⟩
  · exact .inl h
  · exact .inr ⟨x, k, l, rfl, rfl, nofun⟩

theorem replaces_head {x : Char} (hx : strict = true → x ∉ signs) (k l : List Char) :
    Replaces strict (x :: k) (x :: l) :=
  .inr ⟨x, k, l, rfl, rfl, fun hstrict hmem => absurd hmem (hx hstrict)⟩

/-- A class of characters that has ended before the first text has ended before the second one. -/
theorem Replaces.stops {isIn : Char → Bool} (h : Replaces strict a b)
    (hnewline : isIn '\n' = false) (ha : ∀ x ∈ a.head?, isIn x = false) :
    ∀ x ∈ b.head?, isIn x = false := by
  rcases h with h | ⟨x, k, l, rfl, rfl, -⟩
  · intro x hx
    rw [h x hx]
    exact hnewline
  · exact head_cons (ha x rfl)

/-- The second text may stand where the first one stood, and its next token is as told. -/
def Ahead (lineComments strict : Bool) (p : Char → Prop) (a b : List Char) : Prop :=
  Replaces strict a b ∧ Next lineComments p b

theorem Ahead.mono (hpq : ∀ x, p x → q x) (h : Ahead lineComments strict p a b) :
    Ahead lineComments strict q a b :=
  h.imp_right (Next.mono hpq)

theorem Ahead.next (h : Ahead lineComments strict p a b) : Next lineComments p b := h.2

/-! ## Runs of trivia that go on -/

/-- A newline ends a run, whatever stood behind it. -/
theorem TriviaRun.newline (h : TriviaRun lineComments w k) (l : List Char) :
    TriviaRun lineComments (w ++ ['\n']) l := by
  cases k with
  | nil => exact h.add_newline l
  | cons x k =>
    exact triviaRun_append (h.before_any (List.cons_ne_nil x k) _)
      (triviaRun_blanks (by simp [isBlank]))

section

variable {s : Settings} {c place : Cursor}

/-- Each piece of trivia stops only where it begins. -/
theorem triviaUnit_stops (h : (triviaUnit s c).StopsAt place) : place = c := by
  have hcomment : ∀ {outcome : Outcome Unit}, outcome.StopsAt place →
      (∀ expected blamed, outcome = .failed place expected blamed → place = c) →
      (∀ expected, outcome = .missed place expected → place = c) → place = c := by
    intro outcome hstop hfailed hmissed
    cases hstop with
    | missed => exact hmissed _ rfl
    | failed => exact hfailed _ _ rfl
  have hrules : ∀ r ∈ (if s.lineComments then [blanks, blockComment, lineComment]
      else [blanks, blockComment]), (r c).StopsAt place → place = c := by
    refine triviaUnit_forall ?_ ?_ fun _ => ?_
    · intro h
      unfold blanks at h
      split at h <;> cases h
      rfl
    · intro h
      unfold blockComment at h
      split at h
      · dsimp only at h
        split at h <;> cases h
        rfl
      · cases h
        rfl
    · intro h
      unfold lineComment at h
      split at h <;> cases h
      rfl
  unfold triviaUnit at h
  split at h <;> rename_i hallowed
  · obtain ⟨r, hr, h⟩ := stopsAt_choice h
    rw [if_pos hallowed] at hrules
    exact hrules r hr h
  · obtain ⟨r, hr, h⟩ := stopsAt_choice h
    rw [if_neg hallowed] at hrules
    exact hrules r hr h

/-- A comment without an end is named where it begins, behind other trivia. -/
theorem trivia_stops (hc : c.Within) (h : (trivia s c).StopsAt place) :
    SkipsRun s.lineComments c place := by
  have hmany := Outcome.stopsAt_map h
  clear h
  induction c, hc using (triviaUnit_advances (s := s)).induction with
  | step c hc ih =>
    cases hunit : triviaUnit s c with
    | missed place' expected =>
      rw [many_of_misses ⟨_, _, hunit⟩] at hmany
      cases hmany
    | failed place' expected blamed =>
      rw [many_of_failed hunit] at hmany
      cases hmany
      rw [triviaUnit_stops (hunit ▸ .failed : (triviaUnit s c).StopsAt place)]
      exact skipsRun_refl c
    | matched v mid =>
      obtain ⟨hreach, hskip⟩ := triviaUnit_ensures c v mid hc hunit
      rw [triviaUnit_advances.many_of_matched hc hunit] at hmany
      exact skipsRun_trans hskip (ih v mid (hreach.within hc) hunit (Outcome.stopsAt_map hmany))

end

/-- A rule that stops where it begins stops behind a run of trivia. -/
theorem token_stops {rule : Rule α} (hrule : ∀ {c place}, (rule c).StopsAt place → place = c)
    (hc : c.Within) (h : (token s rule c).StopsAt place) : SkipsRun s.lineComments c place := by
  rcases Outcome.stopsAt_bind h with h | ⟨_, mid, hskip, h⟩
  · exact trivia_stops hc h
  · obtain rfl := hrule h
    exact (trivia_ensures c _ place hc hskip).2

/-! ## Behind trivia -/

/-- No trivia stands at the start of the text, and its first character has the property. -/
def Free (lineComments : Bool) (q : Char → Prop) (b : List Char) : Prop :=
  NoTrivia lineComments b ∧ ∀ x ∈ b.head?, q x

theorem free_cons {x : Char} (hblank : isBlank x = false) (hslash : x ≠ '/') (hx : q x) :
    Free lineComments q (x :: l) :=
  ⟨noTrivia_cons hblank hslash, head_cons hx⟩

theorem Free.next (h : Free lineComments q b) (hrun : TriviaRun lineComments w b) :
    Next lineComments q (w ++ b) :=
  ⟨w, b, rfl, hrun, h.1, h.2⟩

/-- How two rules are compared where trivia has ended, at the places that `G` allows. A rule that
stops where it begins says nothing about what is read: then the text is completed behind a
newline. -/
structure Lexeme (deeper : Prop) (lineComments strict : Bool) (G : Cursor → Prop)
    (F : List Char → List Char → Prop) (q : Char → Prop) (rule : Rule α) (rule' : Rule β) :
    Prop where
  stays : ∀ {c v rest}, c.Within → G c → rule c = .matched v rest →
    ∃ cs, cs ≠ [] ∧ c.Reads cs rest ∧ ∀ l, F rest.ahead l →
      Replaces strict c.ahead (cs ++ l) ∧ Free lineComments q (cs ++ l) ∧ rule'.Consumes cs l
  resumes : ∀ {c place}, deeper → c.Within → G c → (rule c).StopsAt place →
    c.ReadsTo [] place ∨ ∃ cs x, cs ≠ [] ∧ c.ReadsTo cs place ∧ ∀ l, F [] l →
      Replaces strict c.ahead (cs ++ (x ++ l)) ∧ Free lineComments q (cs ++ (x ++ l)) ∧
        rule'.Consumes (cs ++ x) l
  fills : deeper → ∃ d, ∀ l, F [] l → d ≠ [] ∧ Free lineComments q (d ++ l) ∧ rule'.Consumes d l

section

variable {s : Settings} {deeper : Prop} {G : Cursor → Prop} {F : List Char → List Char → Prop}
  {rule : Rule α} {rule' : Rule β}

theorem Free.mono (hpq : ∀ x, p x → q x) (h : Free lineComments p b) : Free lineComments q b :=
  h.imp_right fun hb x hx => hpq x (hb x hx)

theorem Lexeme.mono {H : Cursor → Prop} {F' : List Char → List Char → Prop}
    (h : Lexeme deeper lineComments strict G F p rule rule') (hG : ∀ c, H c → G c)
    (hF : ∀ a b, F' a b → F a b) (hpq : ∀ x, p x → q x) :
    Lexeme deeper lineComments strict H F' q rule rule' where
  stays hc hG' hmatch := by
    obtain ⟨cs, hne, hcs, hstays⟩ := h.stays hc (hG _ hG') hmatch
    exact ⟨cs, hne, hcs, fun l hl =>
      (hstays l (hF _ _ hl)).imp_right (And.imp_left (Free.mono hpq))⟩
  resumes hdeeper hc hG' hstop := by
    refine (h.resumes hdeeper hc (hG _ hG') hstop).imp_right fun ⟨cs, x, hne, hcs, hresumes⟩ => ?_
    exact ⟨cs, x, hne, hcs, fun l hl =>
      (hresumes l (hF _ _ hl)).imp_right (And.imp_left (Free.mono hpq))⟩
  fills hdeeper := by
    obtain ⟨d, hd⟩ := h.fills hdeeper
    exact ⟨d, fun l hl => (hd l (hF _ _ hl)).imp_right (And.imp_left (Free.mono hpq))⟩

/-- Behind a first character of that kind the second rule reads nothing but what another one reads
too. -/
theorem Lexeme.trans {γ : Type} {after : Rule γ}
    (h : Lexeme deeper lineComments strict G F q rule rule')
    (hafter : ∀ x cs l, q x → rule'.Consumes (x :: cs) l → after.Consumes (x :: cs) l) :
    Lexeme deeper lineComments strict G F q rule after := by
  have hlift : ∀ {cs l : List Char}, cs ≠ [] → ∀ m, Free lineComments q (cs ++ m) →
      rule'.Consumes cs l → after.Consumes cs l := by
    intro cs l hne m hfree hconsumes
    obtain ⟨x, cs, rfl⟩ := List.exists_cons_of_ne_nil hne
    exact hafter x cs l (hfree.2 x rfl) hconsumes
  refine ⟨fun hc hG hmatch => ?_, fun hdeeper hc hG hstop => ?_, fun hdeeper => ?_⟩
  · obtain ⟨cs, hne, hcs, hstays⟩ := h.stays hc hG hmatch
    refine ⟨cs, hne, hcs, fun l hl => ?_⟩
    obtain ⟨hreplaces, hfree, hconsumes⟩ := hstays l hl
    exact ⟨hreplaces, hfree, hlift hne l hfree hconsumes⟩
  · refine (h.resumes hdeeper hc hG hstop).imp_right fun ⟨cs, x, hne, hcs, hresumes⟩ => ?_
    refine ⟨cs, x, hne, hcs, fun l hl => ?_⟩
    obtain ⟨hreplaces, hfree, hconsumes⟩ := hresumes l hl
    exact ⟨hreplaces, hfree, hlift (List.append_ne_nil_of_left_ne_nil hne x) l
      (List.append_assoc cs x l ▸ hfree) hconsumes⟩
  · obtain ⟨d, hd⟩ := h.fills hdeeper
    refine ⟨d, fun l hl => ?_⟩
    obtain ⟨hne, hfree, hconsumes⟩ := hd l hl
    exact ⟨hne, hfree, hlift hne l hfree hconsumes⟩

theorem Lexeme.map {γ δ : Type} {f : α → γ} {g : β → δ}
    (h : Lexeme deeper lineComments strict G F q rule rule') :
    Lexeme deeper lineComments strict G F q (Rule.map f rule) (Rule.map g rule') := by
  have hmap : Lexeme deeper lineComments strict G F q (Rule.map f rule) rule' := by
    refine ⟨fun hc hG hmatch => ?_, fun hdeeper hc hG hstop => ?_, h.fills⟩
    · obtain ⟨v, hv, -⟩ := map_matched.mp hmatch
      exact h.stays hc hG hv
    · exact h.resumes hdeeper hc hG (Outcome.stopsAt_map hstop)
  exact hmap.trans fun _ _ _ _ hconsumes => accepts_map hconsumes

/-- Behind a miss of the first rule the others are compared where that one misses. -/
theorem lexeme_choice_cons {rules : List (Rule α)} {label : Option String}
    (hrule : Lexeme deeper lineComments strict G F q rule rule')
    (hrules : Lexeme deeper lineComments strict (fun c => G c ∧ MissesAt rule c) F q
      (choice rules label) rule') :
    Lexeme deeper lineComments strict G F q (choice (rule :: rules) label) rule' where
  stays hc hG hmatch := by
    rcases choice_cons_matched hmatch with hmatch | ⟨hmiss, hmatch⟩
    · exact hrule.stays hc hG hmatch
    · exact hrules.stays hc ⟨hG, hmiss⟩ hmatch
  resumes hdeeper hc hG hstop := by
    rcases stopsAt_choice_cons hstop with hstop | ⟨hmiss, hstop⟩
    · exact hrule.resumes hdeeper hc hG hstop
    · exact hrules.resumes hdeeper hc ⟨hG, hmiss⟩ hstop
  fills hdeeper := hrule.fills hdeeper

theorem lexeme_choice {rules : List (Rule α)} {label : Option String}
    (hrules : ∀ r ∈ rule :: rules, Lexeme deeper lineComments strict G F q r rule') :
    Lexeme deeper lineComments strict G F q (choice (rule :: rules) label) rule' where
  stays hc hG hmatch := by
    obtain ⟨r, hr, hmatch⟩ := matched_of_choice hmatch
    exact (hrules r hr).stays hc hG hmatch
  resumes hdeeper hc hG hstop := by
    obtain ⟨r, hr, hstop⟩ := stopsAt_choice hstop
    exact (hrules r hr).resumes hdeeper hc hG hstop
  fills hdeeper := (hrules rule List.mem_cons_self).fills hdeeper

/-- Behind a run of trivia and a newline the second rule reads what it needs. -/
theorem Lexeme.behind_run (h : Lexeme deeper s.lineComments strict G F q rule rule')
    (hdeeper : deeper) :
    ∃ d, ∀ {c place : Cursor}, SkipsRun s.lineComments c place → ∃ w, c.Reads w place ∧
      ∀ l, F [] l → Ahead s.lineComments strict q c.ahead (w ++ ('\n' :: d ++ l)) ∧
        (token s rule').Consumes (w ++ '\n' :: d) l := by
  obtain ⟨d, hd⟩ := h.fills hdeeper
  refine ⟨d, fun {c place} ⟨w, hw, hrun⟩ => ⟨w, hw, fun l hl => ?_⟩⟩
  obtain ⟨-, hnew, hconsumes⟩ := hd l hl
  have hrun' := hrun.newline (d ++ l)
  have hbreak : Replaces strict place.ahead ('\n' :: d ++ l) := .inl (atBreak_newline _)
  have hsplit : ∀ m, w ++ '\n' :: m = (w ++ ['\n']) ++ m := fun m => by simp
  refine ⟨⟨hw.ahead ▸ hbreak.append w, ?_⟩, ?_⟩
  · rw [List.cons_append, hsplit]
    exact hnew.next hrun'
  · rw [hsplit]
    exact accepts_token hrun' hnew.1 hconsumes

/-- A run before something that is read does not depend on what follows it. -/
theorem TriviaRun.before_read {w cs : List Char} {mid rest : Cursor}
    (hrun : TriviaRun lineComments w mid.ahead) (hne : cs ≠ []) (hcs : mid.Reads cs rest)
    (l : List Char) : TriviaRun lineComments w l :=
  hrun.before_any (hcs.ahead ▸ List.append_ne_nil_of_left_ne_nil hne _) l

/-- Trivia may stand before what the rules read. -/
theorem token_viable
    (h : Lexeme deeper s.lineComments strict (fun c => NoTrivia s.lineComments c.ahead) F q rule
      rule') :
    ViableIf deeper F (Ahead s.lineComments strict q) (token s rule) (token s rule') where
  stays {c v rest} hc hmatch := by
    obtain ⟨_, mid, hskip, hrule⟩ := Outcome.bind_matched.mp hmatch
    obtain ⟨hreach, w, hw, hrun⟩ := trivia_ensures c _ mid hc hskip
    obtain ⟨cs, hne, hcs, hstays⟩ :=
      h.stays (hreach.within hc) (trivia_maximal hc hskip) hrule
    refine ⟨w ++ cs, hw.trans hcs, fun l hl => ?_⟩
    obtain ⟨hreplaces, hnew, hconsumes⟩ := hstays l hl
    have hrun' := hrun.before_read hne hcs (cs ++ l)
    refine ⟨?_, accepts_token hrun' hnew.1 hconsumes⟩
    rw [List.append_assoc]
    exact ⟨hw.ahead ▸ hreplaces.append w, hnew.next hrun'⟩
  resumes {c place} hdeeper hc hstop := by
    obtain ⟨d, hbehind⟩ := h.behind_run hdeeper
    rcases Outcome.stopsAt_bind hstop with hstop | ⟨_, mid, hskip, hstop⟩
    · obtain ⟨w, hw, hd⟩ := hbehind (trivia_stops hc hstop)
      exact ⟨w, '\n' :: d, hw.to, hd⟩
    · obtain ⟨hreach, w, hw, hrun⟩ := trivia_ensures c _ mid hc hskip
      rcases h.resumes hdeeper (hreach.within hc) (trivia_maximal hc hskip) hstop with
        hstart | ⟨cs, x, hne, hcs, hresumes⟩
      · obtain ⟨v, hv, hd⟩ := hbehind ⟨w, hw, hrun⟩
        obtain rfl : w = v := List.append_cancel_right (hw.ahead.symm.trans hv.ahead)
        exact ⟨w, '\n' :: d, List.append_nil w ▸ hw.trans_to hstart, hd⟩
      · refine ⟨w ++ cs, x, hw.trans_to hcs, fun l hl => ?_⟩
        obtain ⟨hreplaces, hnew, hconsumes⟩ := hresumes l hl
        have hrun' := TriviaRun.before_read hrun hne hcs (cs ++ (x ++ l))
        rw [List.append_assoc, List.append_assoc]
        refine ⟨⟨hw.ahead ▸ hreplaces.append w, hnew.next hrun'⟩, ?_⟩
        exact accepts_token (List.append_assoc cs x l ▸ hrun')
          (List.append_assoc cs x l ▸ hnew.1) hconsumes
  fills hdeeper := by
    obtain ⟨d, hbehind⟩ := h.behind_run hdeeper
    obtain ⟨w, hw, hd⟩ := hbehind (skipsRun_refl (Cursor.ofText []))
    obtain rfl : w = [] := (List.append_eq_nil_iff.mp hw.ahead.symm).1
    exact ⟨'\n' :: d, hd⟩

/-! ## Marks -/

theorem literal_stops {chars : List Char} {c place : Cursor}
    (h : (literal chars c).StopsAt place) : place = c := by
  unfold literal at h
  split at h <;> cases h
  rfl

theorem symbol_stops {chars : List Char} {c place : Cursor} (hc : c.Within)
    (h : (symbol s chars c).StopsAt place) : SkipsRun s.lineComments c place :=
  token_stops literal_stops hc h

theorem literal_reads {chars : List Char} (hne : chars ≠ []) {c rest : Cursor} {t : Text}
    (hc : c.Within) (h : literal chars c = .matched t rest) : c.Reads chars rest := by
  obtain ⟨hstarts, -, rfl⟩ := literal_matched h
  obtain ⟨k, hk⟩ := (Cursor.startsWith_iff hne).mp hstarts
  exact hc.reads hk

theorem consumes_literal {chars : List Char} (hne : chars ≠ []) (l : List Char) :
    (literal chars).Consumes chars l :=
  accepts_mono (accepts_literal hne) fun _ _ => trivial

/-- Given characters are read before any text. -/
theorem literal_viable {chars : List Char} (hne : chars ≠ []) :
    ViableIf deeper Anything (fun _ b => chars <+: b) (literal chars) (literal chars) where
  stays hc hmatch := ⟨chars, literal_reads hne hc hmatch, fun l _ =>
    ⟨List.prefix_append chars l, consumes_literal hne l⟩⟩
  resumes hdeeper hc hstop := by
    obtain rfl := literal_stops hstop
    exact ⟨[], chars, .refl _, fun l _ => ⟨List.prefix_append chars l, consumes_literal hne l⟩⟩
  fills _ := ⟨chars, fun l _ => ⟨List.prefix_append chars l, consumes_literal hne l⟩⟩

/-- What begins with a mark is no trivia, and begins with the mark in either text. -/
theorem lexeme_of_mark {mark : Char} (h : ViableIf deeper F (fun _ b => [mark] <+: b) rule rule)
    (hadvances : rule.Advances) (hblank : isBlank mark = false) (hslash : mark ≠ '/')
    (hsign : strict = true → mark ∉ signs) :
    Lexeme deeper lineComments strict G F (· = mark) rule rule := by
  have hfree : ∀ {b}, [mark] <+: b → Free lineComments (· = mark) b := by
    rintro _ ⟨l, rfl⟩
    exact free_cons hblank hslash rfl
  have hshared : ∀ {cs k l : List Char}, cs ≠ [] → [mark] <+: cs ++ l →
      Replaces strict (cs ++ k) (cs ++ l) := by
    intro cs k l hne hmark
    obtain ⟨x, cs, rfl⟩ := List.exists_cons_of_ne_nil hne
    obtain rfl := (List.cons_prefix_cons.mp hmark).1
    exact replaces_head hsign _ _
  refine ⟨fun {c v rest} hc _ hmatch => ?_, fun {c place} hdeeper hc _ hstop => ?_,
    fun hdeeper => ?_⟩
  · obtain ⟨cs, hreads, hstays⟩ := h.stays hc hmatch
    have hne : cs ≠ [] := by
      rintro rfl
      have hpos := hreads.pos
      have hless := (hadvances c v rest hc hmatch).2
      simp only [List.length_nil] at hpos
      omega
    refine ⟨cs, hne, hreads, fun l hl => ?_⟩
    obtain ⟨hmark, hconsumes⟩ := hstays l hl
    exact ⟨hreads.ahead ▸ hshared hne hmark, hfree hmark, hconsumes⟩
  · obtain ⟨cs, x, hreads, hresumes⟩ := h.resumes hdeeper hc hstop
    by_cases hne : cs = []
    · subst hne
      exact .inl hreads
    · refine .inr ⟨cs, x, hne, hreads, fun l hl => ?_⟩
      obtain ⟨hmark, hconsumes⟩ := hresumes l hl
      exact ⟨hreads.ahead ▸ hshared hne hmark, hfree hmark, hconsumes⟩
  · obtain ⟨d, hd⟩ := h.fills hdeeper
    exact ⟨d, fun l hl => ⟨hadvances.consumes_ne_nil (hd l hl).2, (hd l hl).imp_left hfree⟩⟩

theorem symbol_viable {x : Char} (hx : x ∈ tokenMarks) :
    ViableIf deeper Anything (Ahead s.lineComments strict (· = x)) (symbol s [x])
      (symbol s [x]) := by
  have hsign : ∀ y ∈ tokenMarks, y ∉ signs ∧ y ≠ '/' := forall_mem_of_all rfl
  exact token_viable (lexeme_of_mark (literal_viable (by simp)) (literal_advances (by simp))
    (isBlank_tokenMarks x hx) (hsign x hx).2 fun _ => (hsign x hx).1)

/-- Between two elements of a list no comment begins with the slash, as long as the text behind it
goes on as before. -/
theorem slash_lexeme :
    Lexeme deeper lineComments strict (fun c => NoTrivia lineComments c.ahead) (Replaces false)
      (· = '/') (literal ['/']) (literal ['/']) := by
  have hfree : ∀ {a b : List Char}, NoTrivia lineComments ('/' :: a) → Replaces false a b →
      Free lineComments (· = '/') ('/' :: b) := by
    intro a b h hreplaces
    refine ⟨?_, head_cons rfl⟩
    have hopening : ∀ x : Char, x ≠ '\n' → ['/', x] <+: '/' :: b → ['/', x] <+: '/' :: a := by
      rintro x hx ⟨m, hm⟩
      rcases hreplaces with hbreak | ⟨y, k, l, rfl, rfl, -⟩
      · exact absurd (hbreak x ((List.cons.inj hm).2 ▸ rfl)) hx
      · cases hm
        exact ⟨k, rfl⟩
    exact ⟨h.blank, fun hopen => h.block (hopening '*' (by decide) hopen),
      fun hallowed hopen => h.line hallowed (hopening '/' (by decide) hopen)⟩
  have hconsumes := consumes_literal (List.cons_ne_nil '/' [])
  refine ⟨fun {c v rest} hc hstart hmatch => ?_,
    fun _ _ _ hstop => .inl (.of_eq (literal_stops hstop)), fun _ => ⟨['/'],
    fun l hl => ⟨by simp, hfree (a := []) ?_ hl, hconsumes l⟩⟩⟩
  · have hreads := literal_reads (by simp) hc hmatch
    rw [hreads.ahead] at hstart
    refine ⟨['/'], by simp, hreads, fun l hl => ⟨?_, hfree hstart hl, hconsumes l⟩⟩
    rw [hreads.ahead]
    exact replaces_head (fun _ => by decide) _ _
  · exact ⟨by simp; decide, by simp, by simp⟩

/-! ## Names -/

theorem scan_stops {length? : List Char → Option Nat} {expected : String} {c place : Cursor}
    (h : (scan length? expected c).StopsAt place) : place = c := by
  unfold scan at h
  split at h <;> cases h
  rfl

theorem consumes_name {cs : List Char} (his : IsName cs)
    (hl : ∀ x ∈ l.head?, isNameChar x = false) : name.Consumes cs l :=
  accepts_mono (accepts_name his hl) fun _ _ => trivial

/-- A name is read up to where it ends. -/
theorem name_stays {c rest : Cursor} {t : Text} (hc : c.Within) (h : name c = .matched t rest) :
    ∃ cs, IsName cs ∧ c.Reads cs rest ∧ ∀ x ∈ rest.ahead.head?, isNameChar x = false := by
  obtain ⟨cs, hreads, his, -⟩ := name_matched hc h
  obtain ⟨count, hcount, -, rfl⟩ := scan_matched hc h
  refine ⟨cs, his, hreads, ?_⟩
  rw [Cursor.ahead_advance hc.1]
  exact nameLength?_maximal hcount

theorem isName_a : IsName ['a'] := rfl

theorem replaces_false_nil_stops (hl : Replaces false [] l) :
    ∀ x ∈ l.head?, isNameChar x = false :=
  hl.stops (by decide) nofun

theorem IsName.free {cs : List Char} (his : IsName cs) (l : List Char) :
    Free lineComments (isNameChar · = true) (cs ++ l) := by
  obtain ⟨x, m, rfl, hblank, hslash, hx⟩ := heads_name his
  exact free_cons hblank hslash hx

theorem name_lexeme :
    Lexeme deeper lineComments strict G (Replaces false) (isNameChar · = true) name name where
  stays hc _ hmatch := by
    obtain ⟨cs, his, hreads, hends⟩ := name_stays hc hmatch
    refine ⟨cs, his.ne_nil, hreads, fun l hl => ⟨?_, his.free l, ?_⟩⟩
    · exact hreads.ahead ▸ hl.append_of_ne_nil his.ne_nil strict
    · exact consumes_name his (hl.stops (by decide) hends)
  resumes hdeeper _ _ hstop := .inl (.of_eq (scan_stops hstop))
  fills _ := ⟨['a'], fun l hl => ⟨by simp, isName_a.free l,
    consumes_name isName_a (replaces_false_nil_stops hl)⟩⟩

theorem atName_stops {c place : Cursor} (h : (atName c).StopsAt place) : place = c := by
  unfold atName at h
  split at h
  · split at h <;> cases h
    rfl
  · cases h
    rfl

theorem consumes_atName {cs : List Char} (his : IsName cs)
    (hl : ∀ x ∈ l.head?, isNameChar x = false) : atName.Consumes ('@' :: cs) l :=
  accepts_mono (accepts_atName his hl) fun _ _ => trivial

theorem atName_lexeme :
    Lexeme deeper lineComments strict G (Replaces false) (· = '@') atName atName where
  stays hc _ hmatch := by
    obtain ⟨hstarts, hname⟩ := atName_matched hmatch
    have hmark := Cursor.Reads.of_startsWith hc hstarts
    obtain ⟨cs, his, hreads, hends⟩ := name_stays (hmark.within hc) hname
    refine ⟨'@' :: cs, by simp, hmark.trans hreads, fun l hl => ⟨?_, ?_, ?_⟩⟩
    · exact (hmark.trans hreads).ahead ▸ hl.append_of_ne_nil (by simp) strict
    · exact free_cons (by decide) (by decide) rfl
    · exact consumes_atName his (hl.stops (by decide) hends)
  resumes hdeeper _ _ hstop := .inl (.of_eq (atName_stops hstop))
  fills _ := ⟨['@', 'a'], fun l hl => ⟨by simp, free_cons (by decide) (by decide) rfl,
    consumes_atName isName_a (replaces_false_nil_stops hl)⟩⟩

/-- Before and behind the change no name goes on. -/
theorem name_viable : ViableIf deeper (fun a b => (∀ x ∈ a.head?, isNameChar x = false) →
    ∀ x ∈ b.head?, isNameChar x = false) Anything name name where
  stays hc hmatch := by
    obtain ⟨cs, his, hreads, hends⟩ := name_stays hc hmatch
    exact ⟨cs, hreads, fun l hl => ⟨trivial, consumes_name his (hl hends)⟩⟩
  resumes hdeeper _ hstop := by
    obtain rfl := scan_stops hstop
    exact ⟨[], ['a'], .refl _, fun l hl => ⟨trivial, consumes_name isName_a (hl nofun)⟩⟩
  fills _ := ⟨['a'], fun l hl => ⟨trivial, consumes_name isName_a (hl nofun)⟩⟩

/-- Behind its mark a name may be missing. -/
theorem nameAfter_lexeme {mark : Char} (hblank : isBlank mark = false) (hslash : mark ≠ '/')
    (hsign : strict = true → mark ∉ signs) :
    Lexeme deeper lineComments strict G (Replaces false) (· = mark) (nameAfter [mark])
      (nameAfter [mark]) := by
  have hname : ViableIf deeper (Replaces false) Anything name name :=
    name_viable.mono (fun _ _ h => h.stops (by decide)) fun _ _ => id
  have hviable := viable_preceded (literal_viable (List.cons_ne_nil mark [])) hname
  exact lexeme_of_mark hviable
    (advances_preceded (literal_advances (by simp)).proceeds name_advances) hblank hslash hsign

end

end LessSyntax.Grammar
