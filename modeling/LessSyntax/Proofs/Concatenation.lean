import LessSyntax.Proofs.GrammarAgreement
import LessSyntax.Proofs.GrammarTranslation
import LessSyntax.Proofs.WholeSource

/-!
# Stylesheets one after the other

Two stylesheets are written one after the other, where the first one ends with the semicolon or the
brace of its last item. The items of the first one are read as before, since no item looks at what
follows its end; and then the items of the second one are, since none looks at what stands before
it.

* `parseStylesheet_ok_iff`: what a stylesheet is read as.
* `many_joined`: the run over the first stylesheet goes on with the second one.
* `parseStylesheet_append`: the items of both.
-/

namespace LessSyntax

open Grammar Rule Cursor

variable {s : Settings} {tails : Tails s.lineComments} {c c' mid : Cursor} {xs ys : List Item}
  {levels : Nat}

/-! ## Whole stylesheets -/

theorem endOf_iff {expected : String} (hc : c.Within) :
    (∃ rest, token s (endOf expected) c = .matched () rest) ↔ c.Nears s.lineComments [] := by
  constructor
  · rintro ⟨rest, h⟩
    obtain ⟨_, mid, hskip, hend⟩ := Outcome.bind_matched.mp h
    have hmid := (trivia_ensures c _ mid hc hskip).1.within hc
    unfold endOf at hend
    split at hend
    · rename_i hatEnd
      exact nears_of_trivia hc hskip (hmid.atEnd_iff.mp hatEnd)
    · cases hend
  · intro h
    obtain ⟨rest, hskip, hrest, hnil⟩ := trivia_nears h noTrivia_nil
    exact ⟨rest, by simp [token, hskip, endOf, hrest.atEnd_iff.mpr hnil]⟩

/-- A stylesheet is read where nothing but trivia follows its items. -/
theorem parseStylesheet_ok_iff {cs : List Char} {url : Option String} :
    parseStylesheet s ⟨cs, url⟩ = .ok ⟨xs⟩ ↔
      ∃ mid, many (itemAt s s.maxDepth) (ofText cs) = .matched xs mid ∧
        mid.Nears s.lineComments [] := by
  rw [parseStylesheet_eq]
  have hwithin : ∀ {ys mid}, many (itemAt s s.maxDepth) (ofText cs) = .matched ys mid →
      mid.Within := fun h =>
    ((many_ensures (itemAt_advances _)) _ _ _ (within_ofText cs) h).1.within (within_ofText cs)
  constructor
  · intro h
    obtain ⟨mid, stop, hread, hend⟩ := parse_matched h
    obtain ⟨ys, hmany, hys⟩ := map_matched.mp hread
    cases hys
    exact ⟨mid, hmany, (endOf_iff (hwithin hmany)).mp ⟨stop, hend⟩⟩
  · rintro ⟨mid, hmany, hend⟩
    obtain ⟨stop, hstop⟩ : ∃ stop, token s (endOf itemLabel) mid = .matched () stop :=
      (endOf_iff (hwithin hmany)).mpr hend
    exact parse_of_matched (map_matched.mpr ⟨xs, hmany, rfl⟩) hstop

/-! ## The first stylesheet -/

/-- The end of an item is no trivia. -/
theorem not_nears_of_joined {mark : Char} {k : List Char} (hmark : mark = ';' ∨ mark = '}')
    (h : Abreast tails k c c') (hjoins : tails.Joins mark) : ¬ c.Nears s.lineComments [] := by
  rintro ⟨-, w, hahead, hrun⟩
  rw [List.append_nil] at hahead
  rw [← hahead, h.ahead, hjoins.first] at hrun
  obtain ⟨hallowed, v, inner, rfl, -⟩ := hrun.in_lastLine hmark
  exact h.lines mark hjoins hallowed ⟨v, inner, by simp⟩

theorem pos_of_ahead_nil (hc : c.Within) (hnil : c.ahead = []) : c.pos = c.size := by
  have hlength := hc.length_ahead
  rw [hnil, List.length_nil] at hlength
  omega

theorem Cursor.Reaches.size {rest : Cursor} (h : c.Reaches rest) : rest.size = c.size := by
  rw [rest.size_eq, c.size_eq, h.text]

/-- The items of the first stylesheet are read to its end, and then those behind it are. -/
theorem many_joined {mark : Char} {others : List Char} (hmark : mark = ';' ∨ mark = '}')
    (hothers : Next s.lineComments (· ≠ ';') others)
    (h : InStep (.joined mark others hmark hothers : Tails s.lineComments) c c')
    (hrun : many (itemAt s levels) c = .matched xs mid) (hend : mid.Nears s.lineComments []) :
    ∃ rest, c'.Reaches rest ∧ rest.pos = c.size ∧ ∀ ys stop,
      many (itemAt s levels) rest = .matched ys stop →
      many (itemAt s levels) c' = .matched (xs ++ ys) stop := by
  have hadvances : (itemAt s levels).Advances := itemAt_advances levels
  have hstart := h.within.1
  induction c, hstart using hadvances.induction generalizing c' xs with
  | step c hc ih =>
    have hc' := h.within.2
    have hitem := itemAt_agrees levels c c' h
    generalize ha : itemAt s levels c = a at hitem
    generalize hb : itemAt s levels c' = b at hitem
    cases hitem with
    | missed =>
      rw [many_of_misses ⟨_, _, ha⟩] at hrun
      cases hrun
      rcases h with ⟨k, h⟩ | h
      · exact absurd hend (not_nears_of_joined hmark h rfl)
      · obtain ⟨_, _, hends, -, -⟩ := h
        exact hends.elim
    | failed =>
      rw [many_of_failed ha] at hrun
      cases hrun
    | ended hd => exact hd.elim
    | @matched v _ rest rest' hK =>
      obtain ⟨rfl, hbehind⟩ := hK
      have hreach := (hadvances c v rest hc ha).1
      have hreach' := (hadvances c' v rest' hc' hb).1
      rw [hadvances.many_of_matched hc ha] at hrun
      obtain ⟨zs, hmore, rfl⟩ := Outcome.map_matched.mp hrun
      have hgoes : ∀ us stop, many (itemAt s levels) rest' = .matched us stop →
          many (itemAt s levels) c' = .matched (v :: us) stop := fun us stop hus => by
        rw [hadvances.many_of_matched hc' hb, hus]
        rfl
      rcases hbehind with hinStep | hpast
      · obtain ⟨last, hlast, hplace, hothers⟩ :=
          ih v rest (hreach.within hc) ha hinStep hmore
        exact ⟨last, hreach'.trans hlast, by rw [hplace, hreach.size],
          fun ys stop hys => hgoes _ _ (hothers ys stop hys)⟩
      · have hmiss : MissesAt (itemAt s levels) rest :=
          itemOver_refuses next_nil rest hpast.within hpast.ahead
        rw [many_of_misses hmiss] at hmore
        cases hmore
        refine ⟨rest', hreach', ?_, hgoes⟩
        rw [hpast.pos, pos_of_ahead_nil hpast.within hpast.ahead, hreach.size]

/-! ## The second stylesheet -/

/-- No item begins with a semicolon, so that none stands at the start of a stylesheet. -/
theorem next_of_parse {cs : List Char}
    (hrun : many (itemAt s levels) (ofText cs) = .matched ys mid)
    (hend : mid.Nears s.lineComments []) : Next s.lineComments (· ≠ ';') cs := by
  have hstart := within_ofText cs
  cases hskip : trivia s (ofText cs) with
  | missed place expected => exact absurd ⟨place, expected, hskip⟩ (trivia_neverMisses _)
  | failed place expected blamed =>
    have htoken : token s mixinName (ofText cs) = .failed place expected blamed := by
      rw [token, hskip]
      rfl
    have hfails : itemAt s levels (ofText cs) = .failed place expected blamed :=
      choice_fails (by simp only [mixinDeclarationOver, terminated, map, both, htoken]; rfl)
    rw [many_of_failed hfails] at hrun
    cases hrun
  | matched v rest =>
    refine next_of_trivia hstart hskip fun x hx => ?_
    rintro rfl
    have hnext : Next s.lineComments (¬ ItemHead ·) cs := by
      refine next_of_trivia hstart hskip fun y hy => ?_
      obtain rfl := Option.mem_unique hx hy
      exact fun hhead => itemHead_ne hhead rfl (by decide) rfl
    have hmiss : MissesAt (itemAt s levels) (ofText cs) := itemOver_refuses hnext _ hstart rfl
    rw [many_of_misses hmiss] at hrun
    cases hrun
    obtain ⟨last, hlast, -, hnil⟩ := trivia_nears hend noTrivia_nil
    cases hlast.symm.trans hskip
    rw [hnil] at hx
    cases hx

/-- A stylesheet behind another one is read as if it stood alone, further on. -/
theorem parseStylesheet_append {s : Settings} {a b : List Char} {urlA urlB url : Option String}
    {xs ys : List Item} (ha : parseStylesheet s ⟨a, urlA⟩ = .ok ⟨xs⟩)
    (hb : parseStylesheet s ⟨b, urlB⟩ = .ok ⟨ys⟩) (hline : ¬ ['/', '/'] <:+: a)
    (hlast : ∃ mark ∈ a.getLast?, mark = ';' ∨ mark = '}') :
    parseStylesheet s ⟨a ++ b, url⟩ = .ok ⟨xs ++ Item.shiftAll a.length ys⟩ := by
  obtain ⟨mid, hrun, hend⟩ := parseStylesheet_ok_iff.mp ha
  obtain ⟨last, hrunB, hendB⟩ := parseStylesheet_ok_iff.mp hb
  obtain ⟨mark, hmark, hends⟩ := hlast
  obtain ⟨k, rfl⟩ := List.getLast?_eq_some_iff.mp hmark
  have hothers := next_of_parse hrunB hendB
  have hstart : InStep (.joined mark b hends hothers : Tails s.lineComments) (ofText (k ++ [mark]))
      (ofText (k ++ [mark] ++ b)) := by
    refine .inl ⟨k, within_ofText _, within_ofText _, rfl, rfl, ?_, fun _ _ _ hinside => ?_⟩
    · simp
    · exact hline (hinside.trans (List.prefix_append k _).isInfix)
  obtain ⟨rest, hreach, hplace, hjoined⟩ := many_joined hends hothers hstart hrun hend
  -- the first stylesheet ends where the second one begins
  have hrest : rest = (ofText b).behind (k ++ [mark]) 0 := by
    refine ext_pos hreach.text ?_ hreach.depth
    rw [hplace, pos_behind]
    exact (Int.zero_add _).symm
  have hlater : Carried (k ++ [mark]) 0 (Item.shiftAll (k ++ [mark]).length) (ofText b) _
      (many (itemAt s s.maxDepth) ((ofText b).behind (k ++ [mark]) 0)) :=
    many_carries (itemAt_carries s.maxDepth) (ofText b) (within_ofText b)
  rw [hrunB, ← hrest] at hlater
  generalize hrunRest : many (itemAt s s.maxDepth) rest = a at hlater
  cases hlater with
  | matched hreachB =>
    refine parseStylesheet_ok_iff.mpr ⟨_, hjoined _ _ hrunRest, ?_⟩
    obtain ⟨hlast, w, hahead, hrun⟩ := hendB
    exact ⟨hlast.behind, w, by rw [ahead_behind hlast.1, hahead], hrun⟩

/-- A rule, and behind it a declaration that ends with the text. -/
theorem rule_before_declaration :
    ∃ xs ys, parseStylesheet ⟨1, true⟩ ⟨['a', '{', '}'], none⟩ = .ok ⟨xs⟩ ∧
      parseStylesheet ⟨1, true⟩ ⟨['b', ':', 'c'], none⟩ = .ok ⟨ys⟩ ∧
      parseStylesheet ⟨1, true⟩ ⟨['a', '{', '}'] ++ ['b', ':', 'c'], none⟩
        = .ok ⟨xs ++ Item.shiftAll 3 ys⟩ := by
  obtain ⟨⟨xs⟩, hxs⟩ : ∃ sheet, parseStylesheet ⟨1, true⟩ ⟨['a', '{', '}'], none⟩ = .ok sheet :=
    ⟨_, rfl⟩
  obtain ⟨⟨ys⟩, hys⟩ : ∃ sheet, parseStylesheet ⟨1, true⟩ ⟨['b', ':', 'c'], none⟩ = .ok sheet :=
    ⟨_, rfl⟩
  exact ⟨xs, ys, hxs, hys, parseStylesheet_append hxs hys (by decide) ⟨'}', rfl, .inr rfl⟩⟩

end LessSyntax
