import LessSyntax.Proofs.ItemKinds

/-!
# What is read from each entry

An item is read by itself as it is read as the only item of a stylesheet, and so is a declaration.
A value is what stands behind the colon of a declaration, and the selectors of a rule are what
stands before an empty block. So an entry reads nothing that a stylesheet would not hold, although
each entry gets to the end of its text in its own way.

* `parse_ok_iff`: what a whole source is read as.
* `Longer`: the cursors of two runs, where the second text goes on behind the first one.
* `selectorGroup_longer`: selectors are read alike in both texts.
* `entries_agree`: the entries and the stylesheets.
-/

namespace LessSyntax

open Grammar Rule Cursor

variable {α : Type} {s : Settings} {c c' rest : Cursor} {cs k l : List Char} {x : Item}
  {url : Option String}

/-! ## Whole sources -/

theorem parse_ok_iff {rule : Rule α} {v : α} {expected : String} (hrule : rule.Proceeds) :
    parse s rule ⟨cs, url⟩ expected = .ok v ↔
      ∃ rest, rule (ofText cs) = .matched v rest ∧ rest.Nears s.lineComments [] := by
  have hwithin : ∀ {rest}, rule (ofText cs) = .matched v rest → rest.Within := fun h =>
    (hrule _ _ _ (within_ofText cs) h).1.within (within_ofText cs)
  constructor
  · intro h
    obtain ⟨rest, stop, hread, hend⟩ := parse_matched h
    exact ⟨rest, hread, (endOf_iff (hwithin hread)).mp ⟨stop, hend⟩⟩
  · rintro ⟨rest, hread, hend⟩
    obtain ⟨stop, hstop⟩ : ∃ stop, token s (endOf expected) rest = .matched () stop :=
      (endOf_iff (hwithin hread)).mpr hend
    exact parse_of_matched hread hstop

/-! ## Items and declarations -/

/-- An item that is read by itself is the only one of a stylesheet. -/
theorem parseItem_ok_iff :
    parseItem s ⟨cs, url⟩ = .ok x ↔ parseStylesheet s ⟨cs, url⟩ = .ok ⟨[x]⟩ := by
  rw [parseItem_eq, parse_ok_iff (itemAt_advances s.maxDepth).proceeds,
    parseStylesheet_one_iff]

theorem declarationAt_kind {levels : Nat} (h : declarationAt s levels c = .matched x rest) :
    ∃ name value important, x = .declaration name value important := by
  obtain ⟨name, mid, -, h⟩ := Outcome.bind_matched.mp h
  obtain ⟨⟨value, important⟩, -, rfl⟩ := Outcome.map_matched.mp h
  exact ⟨name, value, important, rfl⟩

/-- No rule for another kind of item reads a declaration. -/
theorem declaration_of_item {levels : Nat} {inner? : Option (Rule Item)} {name : Text}
    {value : Value} {important : Bool}
    (h : itemOver s levels inner? c = .matched (.declaration name value important) rest) :
    declarationAt s levels c = .matched (.declaration name value important) rest := by
  rcases choice_cons_matched h with h | ⟨-, h⟩
  · obtain ⟨found, -, hfound⟩ := map_matched.mp h
    cases hfound
  rcases choice_cons_matched h with h | ⟨-, h⟩
  · exact h
  rcases choice_cons_matched h with h | ⟨-, h⟩
  · obtain ⟨found, -, hfound⟩ := map_matched.mp h
    cases hfound
  rcases choice_cons_matched h with h | ⟨-, h⟩
  · obtain ⟨found, -, hfound⟩ := map_matched.mp h
    cases hfound
  rcases choice_cons_matched h with h | ⟨-, h⟩
  · obtain ⟨declared, mid, -, h⟩ := Outcome.bind_matched.mp h
    obtain ⟨found, stop, -, h⟩ := Outcome.bind_matched.mp h
    obtain ⟨mark, -, hfound⟩ := Outcome.map_matched.mp h
    cases hfound
  · obtain ⟨found, -, hfound⟩ := map_matched.mp (relabel_matched.mp h)
    cases hfound

/-- What is read as a declaration is chosen among all kinds of items. -/
theorem item_of_declaration {levels : Nat} {inner? : Option (Rule Item)} (hc : c.Within)
    (h : declarationAt s levels c = .matched x rest) :
    itemOver s levels inner? c = .matched x rest :=
  item_of_kind hc (by simp [kindsOver]) h

/-- A declaration that is read by itself is the only item of a stylesheet. -/
theorem parseDeclaration_ok_iff :
    parseDeclaration s ⟨cs, url⟩ = .ok x ↔ parseStylesheet s ⟨cs, url⟩ = .ok ⟨[x]⟩ ∧
      ∃ name value important, x = .declaration name value important := by
  have hproceeds : (declarationAt s s.maxDepth).Proceeds :=
    (declarationAt_ensures (P := fun _ _ _ => True) (valueAt_advances s.maxDepth)).proceeds
  rw [parseDeclaration_eq, parse_ok_iff hproceeds, parseStylesheet_one_iff]
  constructor
  · rintro ⟨rest, hread, hend⟩
    exact ⟨⟨rest, item_of_declaration (within_ofText cs) hread, hend⟩, declarationAt_kind hread⟩
  · rintro ⟨⟨rest, hread, hend⟩, name, value, important, rfl⟩
    exact ⟨rest, declaration_of_item hread, hend⟩

/-! ## Values -/

theorem parseValue_ok_iff {v : Value} :
    parseValue s ⟨cs, url⟩ = .ok v ↔
      ∃ rest, valueAt s s.maxDepth (ofText cs) = .matched v rest ∧
        rest.Nears s.lineComments [] := by
  rw [parseValue_eq, parse_ok_iff (valueAt_advances s.maxDepth).proceeds]

/-- At the end of the text a value is not marked as important. -/
theorem important_end (h : c.Nears s.lineComments []) : important s c = .matched false c := by
  obtain ⟨rest, hskip, -, hnil⟩ := trivia_nears h noTrivia_nil
  have hmark : opt (symbol s ['!']) c = .matched none c :=
    opt_of_misses (symbol_refuses_next (next_of_trivia h.1 hskip (by simp [hnil])) c h.1 rfl)
  rw [important, hmark]
  rfl

/-- A value behind a name and a colon is that of a declaration. -/
theorem parseStylesheet_of_value {v : Value} (h : parseValue s ⟨cs, url⟩ = .ok v) :
    parseStylesheet s ⟨'a' :: ':' :: cs, url⟩
      = .ok ⟨[.declaration ⟨['a'], some ⟨0, 1⟩⟩ (v.shift 2) false]⟩ := by
  obtain ⟨stop, hvalue, hend⟩ := parseValue_ok_iff.mp h
  have hstart := within_ofText cs
  have hstop := (valueAt_advances s.maxDepth _ _ _ hstart hvalue).1.within hstart
  have hwhole := within_ofText ('a' :: ':' :: cs)
  have hname : token s name (ofText ('a' :: ':' :: cs))
      = .matched ⟨['a'], some ⟨0, 1⟩⟩ ((ofText ('a' :: ':' :: cs)).advance 1) := by
    rw [token, trivia_of_noTrivia hwhole (noTrivia_cons (by decide) (by decide))]
    exact name_eq (n := ['a']) rfl hwhole rfl (head_cons (by decide))
  have hcolon : symbol s [':'] ((ofText ('a' :: ':' :: cs)).advance 1)
      = .matched (((ofText ('a' :: ':' :: cs)).advance 1).next 1)
        ((ofText cs).behind ['a', ':'] 0) := by
    have hmid := (hwhole.reads_one (x := 'a') rfl).within hwhole
    have hahead := hwhole.ahead_advance_one (x := 'a') rfl
    have hskip : trivia s ((ofText ('a' :: ':' :: cs)).advance 1) = .matched () _ :=
      trivia_of_noTrivia hmid (hahead ▸ noTrivia_cons (by decide) (by decide))
    rw [symbol_one hskip hahead, advance_advance]
    exact congrArg _ (ofText_append ['a', ':'] cs)
  have hshifted : valueAt s s.maxDepth ((ofText cs).behind ['a', ':'] 0)
      = .matched (v.shift 2) (stop.behind ['a', ':'] 0) :=
    (carries_matched_iff (valueAt_carries s.maxDepth) hstart).mpr
      ⟨v, stop, (valueAt_advances s.maxDepth _ _ _ hstart hvalue).1, hvalue, rfl, rfl⟩
  have hbehind : (stop.behind ['a', ':'] 0).Nears s.lineComments [] := (nears_behind hstop).mpr hend
  obtain ⟨mark, last, hterminator, hlast, hnil⟩ := terminator_end hbehind
  refine parseStylesheet_one_iff.mpr
    ⟨last, item_of_declaration hwhole ?_, nears_self hlast hnil⟩
  have hends : terminated (important s) (terminator s) (stop.behind ['a', ':'] 0)
      = .matched false last :=
    terminated_matched.mpr ⟨_, mark, important_end hbehind, hterminator⟩
  refine Outcome.bind_matched.mpr ⟨_, _, terminated_matched.mpr ⟨_, _, hname, hcolon⟩, ?_⟩
  refine Outcome.map_matched.mpr ⟨(v.shift 2, false), cut_matched.mpr ?_, rfl⟩
  exact both_matched.mpr ⟨_, hshifted, hends⟩

/-! ## A longer text -/

namespace Cursor

/-- The cursors stand at the same place. The second text goes on behind the first one, with a
newline and then the given text. -/
structure Extended (l : List Char) (c c' : Cursor) : Prop where
  within : c.Within
  within' : c'.Within
  pos : c'.pos = c.pos
  ahead : c'.ahead = c.ahead ++ '\n' :: l

/-- The cursors of two runs, the second one over a longer text. Either they stand at the same place,
or all of the first text is read, and the newline behind it too, trivia apart. -/
def Longer (lineComments : Bool) (l : List Char) (c c' : Cursor) : Prop :=
  Extended l c c' ∨ Nears lineComments c [] ∧ Nears lineComments c' l

theorem Longer.within {lineComments : Bool} (h : Longer lineComments l c c') :
    c.Within ∧ c'.Within := by
  rcases h with h | h
  · exact ⟨h.within, h.within'⟩
  · exact ⟨h.1.1, h.2.1⟩

theorem Extended.matched (h : Extended l c c') {count : Nat} (hcount : count ≤ c.ahead.length) :
    Agree False (Same (Extended l)) (.matched (c.next count) (c.advance count))
      (.matched (c'.next count) (c'.advance count)) := by
  refine .matched ⟨?_, h.within.advance hcount, h.within'.advance ?_, ?_, ?_⟩
  · rw [next_eq h.within, next_eq h.within', h.pos, h.ahead, List.take_append_of_le_length hcount]
  · rw [h.ahead, List.length_append]
    omega
  · rw [pos_advance, pos_advance, h.pos]
  · rw [ahead_advance h.within.1, ahead_advance h.within'.1, h.ahead,
      List.drop_append_of_le_length hcount]

end Cursor

namespace Grammar

variable {rule : Rule α}

/-- Trivia is skipped in both texts up to the same place, or up to the end of the first text and up
to what stands behind the newline in the second one. -/
theorem trivia_longer (hl : NoTrivia s.lineComments l) (h : Longer s.lineComments l c c')
    (hskip : trivia s c = .matched () rest) :
    ∃ rest', trivia s c' = .matched () rest' ∧
      (Extended l rest rest' ∨ rest.ahead = [] ∧ rest'.ahead = l) := by
  have hspent : c'.Nears s.lineComments l →
      ∃ rest', trivia s c' = .matched () rest' ∧ rest'.ahead = l := by
    intro hnears
    obtain ⟨rest', hskip', -, hahead⟩ := trivia_nears hnears hl
    exact ⟨rest', hskip', hahead⟩
  rcases h with h | ⟨hend, hnears⟩
  · obtain ⟨-, w, hreads, hrun⟩ := trivia_ensures c () rest h.within hskip
    have hstop := trivia_maximal h.within hskip
    have hahead' : c'.ahead = w ++ (rest.ahead ++ '\n' :: l) := by
      rw [h.ahead, hreads.ahead, List.append_assoc]
    cases hnext : rest.ahead with
    | nil =>
      rw [hnext] at hrun hahead'
      obtain ⟨rest', hskip', hahead⟩ :=
        hspent ⟨h.within', w ++ ['\n'], by rw [hahead']; simp, hrun.add_newline l⟩
      exact ⟨rest', hskip', .inr ⟨rfl, hahead⟩⟩
    | cons x m =>
      rw [hnext] at hrun hstop hahead'
      have hstop' : NoTrivia s.lineComments (x :: m ++ '\n' :: l) := by
        have hopening : ∀ {opening : List Char}, '\n' ∉ opening →
            opening <+: x :: m ++ '\n' :: l → opening <+: x :: m :=
          fun hnewline => prefix_of_append (head_cons hnewline)
        exact ⟨hstop.blank, fun hopen => hstop.block (hopening (by decide) hopen),
          fun hallowed hopen => hstop.line hallowed (hopening (by decide) hopen)⟩
      obtain ⟨v, hskip', -⟩ :=
        accepts_trivia (hrun.before_any (List.cons_ne_nil x m) _) hstop' c' h.within' hahead'
      have hreads' := h.within'.reads hahead'
      refine ⟨_, hskip', .inl ⟨hreads.within h.within, hreads'.within h.within', ?_, ?_⟩⟩
      · rw [hreads'.pos, hreads.pos, h.pos]
      · rw [h.within'.ahead_advance hahead', hnext]
  · obtain ⟨last, hlast, -, hnil⟩ := trivia_nears hend noTrivia_nil
    cases hlast.symm.trans hskip
    obtain ⟨rest', hskip', hahead⟩ := hspent hnears
    exact ⟨rest', hskip', .inr ⟨hnil, hahead⟩⟩

/-- A rule with trivia before it, that begins with nothing that stands behind the newline. -/
theorem agrees_token_longer (hl : NoTrivia s.lineComments l) {p : Char → Prop}
    (hrule : rule.Agrees False (Extended l) (Extended l))
    (hrefuses : ∀ {k}, Next s.lineComments p k → (token s rule).Refuses k)
    (hhead : ∀ x ∈ l.head?, p x) :
    (token s rule).Agrees False (Longer s.lineComments l) (Longer s.lineComments l) := by
  intro c c' h
  obtain ⟨hc, hc'⟩ := h.within
  cases hskip : trivia s c with
  | missed place expected => exact absurd ⟨place, expected, hskip⟩ (trivia_neverMisses c)
  | failed place expected blamed =>
    unfold token
    rw [hskip]
    exact .failed
  | matched v rest =>
    obtain ⟨rest', hskip', hextended | ⟨hnil, hahead⟩⟩ := trivia_longer hl h hskip
    · have hagree := hrule rest rest' hextended
      unfold token
      rw [hskip, hskip']
      exact hagree.mono (fun _ _ _ _ hK => ⟨hK.1, .inl hK.2⟩) id
    · obtain ⟨place, expected, hmiss⟩ :=
        hrefuses (next_of_trivia hc hskip (by simp [hnil])) c hc rfl
      obtain ⟨place', expected', hmiss'⟩ :=
        hrefuses (next_of_trivia hc' hskip' (hahead ▸ hhead)) c' hc' rfl
      rw [hmiss, hmiss']
      exact .missed

theorem name_extended : name.Agrees False (Extended l) (Extended l) := by
  intro c c' h
  have hboundary : Boundary ('\n' :: l) := boundary_cons (by decide) l
  unfold name scan
  rw [onward_eq h.within.1, onward_eq h.within'.1, h.ahead, nameLength?_boundary hboundary]
  cases hcount : nameLength? c.ahead with
  | none => exact .missed
  | some count => exact h.matched (nameLength?_bounds hcount).2

theorem literal_extended {mark : Char} (hmark : mark ≠ '\n') :
    (literal [mark]).Agrees False (Extended l) (Extended l) := by
  intro c c' h
  have hhead : c'.startsWith [mark] = c.startsWith [mark] := by
    rw [startsWith_one, startsWith_one, h.ahead]
    cases c.ahead with
    | nil => simpa using hmark.symm
    | cons x m => rfl
  unfold literal
  rw [hhead]
  split
  · rename_i hstarts
    obtain ⟨m, hm⟩ := (startsWith_iff (by simp)).mp hstarts
    exact h.matched (by simp [hm])
  · exact .missed

theorem nameAfter_extended {mark : Char} (hmark : mark ≠ '\n') :
    (nameAfter [mark]).Agrees False (Extended l) (Extended l) :=
  agrees_preceded (literal_extended hmark) name_extended

theorem noTrivia_block : NoTrivia s.lineComments ['{', '}'] :=
  noTrivia_cons (by decide) (by decide)

theorem simpleSelector_longer : (simpleSelector s).Agrees False (Longer s.lineComments ['{', '}'])
    (Longer s.lineComments ['{', '}']) := by
  refine agrees_token_longer noTrivia_block (agrees_choice ?_) simpleSelector_refuses
    (head_cons (by decide))
  simp only [List.forall_mem_cons, List.not_mem_nil, false_imp_iff, implies_true, and_true]
  exact ⟨agrees_map (nameAfter_extended (by decide)), agrees_map (nameAfter_extended (by decide)),
    agrees_map name_extended, agrees_map (literal_extended (by decide))⟩

/-- A block behind selectors does not change them. -/
theorem selectorGroup_longer : (selectorGroup s).Agrees False (Longer s.lineComments ['{', '}'])
    (Longer s.lineComments ['{', '}']) := by
  have hcomma : (symbol s [',']).Agrees False (Longer s.lineComments ['{', '}'])
      (Longer s.lineComments ['{', '}']) :=
    agrees_token_longer noTrivia_block (literal_extended (by decide)) symbol_refuses_next
      (head_cons (by decide))
  exact agrees_separated1 (fun _ _ h => h.within) simpleSelector_longer
    simpleSelector_advances.proceeds hcomma.leads (symbol_advances (by simp))

/-- What is left behind the first text is an empty block. -/
theorem nears_longer (h : Longer s.lineComments l c c') (hend : c.Nears s.lineComments []) :
    c'.Nears s.lineComments l := by
  rcases h with h | ⟨-, hnears⟩
  · obtain ⟨hc, w, hahead, hrun⟩ := hend
    rw [List.append_nil] at hahead
    exact ⟨h.within', w ++ ['\n'], by rw [h.ahead, hahead]; simp, hrun.add_newline l⟩
  · exact hnears

theorem blockOver_empty {inner : Rule Item} (hinner : inner.Refuses ['}'])
    (h : c.Nears s.lineComments ['{', '}']) :
    ∃ stop, blockOver s (some inner) c = .matched [] stop ∧ stop.Nears s.lineComments [] := by
  obtain ⟨mid, hskip, hmid, hahead⟩ := trivia_nears h noTrivia_block
  have hopen : symbol s ['{'] c = .matched (mid.next 1) (mid.advance 1) := symbol_one hskip hahead
  have hinside := (hmid.reads_one hahead).within hmid
  have hbrace : (mid.advance 1).ahead = ['}'] := hmid.ahead_advance_one hahead
  obtain ⟨t, stop, hclose, hstop, hnil⟩ :=
    closeBlock_nears (s := s) (c := (mid.advance 1).nested) (nears_self hinside hbrace)
  have hbody : terminated (many inner) (closeBlock s) (mid.advance 1).nested = .matched [] stop :=
    terminated_matched.mpr
      ⟨_, t, many_of_misses (hinner (mid.advance 1).nested hinside hbrace), hclose⟩
  refine ⟨stop.withDepth c.depth, ?_, nears_self hstop hnil⟩
  exact Outcome.bind_matched.mpr
    ⟨_, _, hopen, Outcome.bind_matched.mpr ⟨[], stop, cut_matched.mpr hbody, rfl⟩⟩

end Grammar

/-! ## Selectors -/

/-- Selectors before an empty block are those of a rule. -/
theorem parseStylesheet_of_selectorGroup {group : SelectorGroup} (hdepth : 1 ≤ s.maxDepth)
    (h : parseSelectorGroup s ⟨cs, url⟩ = .ok group) :
    parseStylesheet s ⟨cs ++ ['\n', '{', '}'], url⟩ = .ok ⟨[.rule group []]⟩ := by
  rw [parseSelectorGroup, parse_ok_iff selectorGroup_advances.proceeds] at h
  obtain ⟨rest, hgroup, hend⟩ := h
  obtain ⟨levels, hlevels⟩ : ∃ n, s.maxDepth = n + 1 := ⟨s.maxDepth - 1, by omega⟩
  have hwhole := within_ofText (cs ++ ['\n', '{', '}'])
  have hagree := selectorGroup_longer (s := s) (ofText cs) (ofText (cs ++ ['\n', '{', '}']))
    (.inl ⟨within_ofText cs, hwhole, rfl, rfl⟩)
  rw [hgroup] at hagree
  generalize hgroup' : selectorGroup s (ofText (cs ++ ['\n', '{', '}'])) = b at hagree
  cases hagree with
  | ended hd => exact hd.elim
  | @matched _ _ _ rest' hK =>
    obtain ⟨rfl, hlonger⟩ := hK
    have hinner : (itemAt s levels).Refuses ['}'] :=
      itemOver_refuses ⟨[], ['}'], rfl, .nil, noTrivia_brace,
        head_cons fun hhead => itemHead_ne hhead rfl (by decide) rfl⟩
    obtain ⟨stop, hblock, hstop⟩ :=
      blockOver_empty hinner (nears_longer hlonger hend)
    have hrule : qualifiedRuleOver s (innerItem? s s.maxDepth) (ofText (cs ++ ['\n', '{', '}']))
        = .matched (.rule group []) stop := by
      rw [hlevels]
      exact map_matched.mpr ⟨(group, []), both_matched.mpr ⟨rest', hgroup', hblock⟩, rfl⟩
    have hitem : itemAt s s.maxDepth (ofText (cs ++ ['\n', '{', '}']))
        = .matched (.rule group []) stop := item_of_kind hwhole (by simp [kindsOver]) hrule
    exact parseStylesheet_one_iff.mpr ⟨stop, hitem, hstop⟩

/-! ## All entries -/

/-- **The entries agree.** An item is read by itself exactly where it is the only item of a
stylesheet, and a declaration is where it is that item. A value is that of a declaration once a name
and a colon stand before it, and selectors are those of a rule once an empty block stands behind
them. -/
theorem entries_agree (s : Settings) (cs : List Char) (url : Option String) :
    (∀ x, parseItem s ⟨cs, url⟩ = .ok x ↔ parseStylesheet s ⟨cs, url⟩ = .ok ⟨[x]⟩) ∧
    (∀ x, parseDeclaration s ⟨cs, url⟩ = .ok x ↔ parseStylesheet s ⟨cs, url⟩ = .ok ⟨[x]⟩ ∧
      ∃ name value important, x = .declaration name value important) ∧
    (∀ v, parseValue s ⟨cs, url⟩ = .ok v →
      parseStylesheet s ⟨'a' :: ':' :: cs, url⟩
        = .ok ⟨[.declaration ⟨['a'], some ⟨0, 1⟩⟩ (v.shift 2) false]⟩) ∧
    ∀ group, 1 ≤ s.maxDepth → parseSelectorGroup s ⟨cs, url⟩ = .ok group →
      parseStylesheet s ⟨cs ++ ['\n', '{', '}'], url⟩ = .ok ⟨[.rule group []]⟩ :=
  ⟨fun _ => parseItem_ok_iff, fun _ => parseDeclaration_ok_iff,
    fun _ => parseStylesheet_of_value, fun _ => parseStylesheet_of_selectorGroup⟩

/-- A text that is a value, and also the selector of a rule. -/
theorem entries_agree_name :
    ∃ v group, parseValue ⟨1, true⟩ ⟨['b', '/', '/'], none⟩ = .ok v ∧
      parseStylesheet ⟨1, true⟩ ⟨['a', ':', 'b', '/', '/'], none⟩
        = .ok ⟨[.declaration ⟨['a'], some ⟨0, 1⟩⟩ (v.shift 2) false]⟩ ∧
      parseSelectorGroup ⟨1, true⟩ ⟨['b', '/', '/'], none⟩ = .ok group ∧
      parseStylesheet ⟨1, true⟩ ⟨['b', '/', '/', '\n', '{', '}'], none⟩
        = .ok ⟨[.rule group []]⟩ := by
  obtain ⟨v, hv⟩ : ∃ v, parseValue ⟨1, true⟩ ⟨['b', '/', '/'], none⟩ = .ok v := ⟨_, rfl⟩
  obtain ⟨group, hgroup⟩ : ∃ group, parseSelectorGroup ⟨1, true⟩ ⟨['b', '/', '/'], none⟩
      = .ok group := ⟨_, rfl⟩
  obtain ⟨-, -, hvalue, hselectors⟩ := entries_agree ⟨1, true⟩ ['b', '/', '/'] none
  exact ⟨v, group, hv, hvalue v hv, hgroup, hselectors group (by decide) hgroup⟩

end LessSyntax
