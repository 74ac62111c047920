import LessSyntax.Proofs.LeadingTrivia
import LessSyntax.Proofs.LongestRun
import LessSyntax.Proofs.ViablePrefix

/-!
# What is read before an error

A report on a stylesheet that names no rule is about a place where another item should begin. The
text before it is a stylesheet of its own: cut there, it is read, since the last item ends there as
well. No item begins at the place, so nothing that stands before it can be blamed.

* `parse_misses`: what a report that names no rule says about the rule that was applied.
* `items_cut`: items are read again where the text is cut behind the trivia that follows them.
* `parseStylesheet_valid_before`: the text before a report that names no rule is a stylesheet.
-/

namespace LessSyntax

open Grammar Rule

variable {α : Type} {s : Settings} {source : Source} {rule : Rule α} {expected : String}
  {d : Diagnostic} {c mid place : Cursor}

/-! ## Reports that name no rule -/

/-- The rule misses, or it matches and more is left than trivia. -/
theorem parse_misses (h : parse s rule source expected = .error d) (hnone : d.rule = none) :
    MissesAt rule (Cursor.ofText source.chars) ∨ ∃ v mid place label,
      rule (Cursor.ofText source.chars) = .matched v mid ∧
        token s (endOf expected) mid = .missed place label ∧
          d = source.report place label none := by
  unfold parse at h
  cases hwhole : whole s rule expected (Cursor.ofText source.chars) with
  | matched v rest =>
    rw [hwhole] at h
    cases h
  | failed place label blamed =>
    rw [hwhole] at h
    cases h
    cases hnone
  | missed place label =>
    rw [hwhole] at h
    cases h
    unfold whole terminated map both at hwhole
    cases hrule : rule (Cursor.ofText source.chars) with
    | missed place' label' => exact .inl ⟨place', label', hrule⟩
    | failed place' label' blamed =>
      rw [hrule] at hwhole
      cases hwhole
    | matched v mid =>
      refine .inr ⟨v, mid, place, label, rfl, ?_, rfl⟩
      rw [hrule] at hwhole
      dsimp only [Outcome.map, Outcome.bind] at hwhole
      cases hend : token s (endOf expected) mid with
      | missed place' label' =>
        rw [hend] at hwhole
        cases hwhole
        rfl
      | matched _ _ | failed _ _ _ =>
        rw [hend] at hwhole
        cases hwhole

/-- What is left where the end of the text was expected begins behind trivia. -/
theorem endOf_missed {label : String} (h : token s (endOf expected) mid = .missed place label) :
    trivia s mid = .matched () place ∧ place.atEnd = false := by
  unfold token at h
  cases hskip : trivia s mid with
  | missed place' label' => exact absurd ⟨place', label', hskip⟩ (trivia_neverMisses mid)
  | failed place' label' blamed =>
    rw [hskip] at h
    cases h
  | matched v rest =>
    rw [hskip] at h
    dsimp only [Outcome.bind] at h
    unfold endOf at h
    split at h
    · cases h
    · rename_i hend
      cases h
      exact ⟨rfl, by simpa using hend⟩

/-! ## Cut texts -/

theorem Cursor.Reads.of_ofText {text cs : List Char} (h : (Cursor.ofText text).Reads cs place) :
    Cursor.of text cs.length 0 = place := by
  have hdepth : place.depth = 0 := h.depth
  have hpos : place.pos = cs.length := h.pos.trans (Int.zero_add _)
  have htext : place.text = text := by
    rw [h.rest, Cursor.text_advance]
    rfl
  exact Cursor.ext_pos htext.symm hpos.symm hdepth.symm

/-- Items are read again where the text is cut behind the trivia that follows them. The last one may
end there without a semicolon, and then it is read up to the cut. -/
theorem items_cut {levels : Nat} {xs : List Item} (hc : c.Within)
    (hitems : many (itemAt s levels) c = .matched xs mid)
    (hskip : trivia s mid = .matched () place) :
    ∃ cs w, c.Reads (cs ++ w) place ∧ (many (itemAt s levels)).Consumes cs w ∧
      TriviaRun s.lineComments w [] := by
  have hsame : ViableItemIf False s.lineComments (NoItem s.lineComments)
      (NoSemicolon s.lineComments) (many (itemAt s levels)) (many (itemAt s levels)) :=
    items_viableIf (Nat.le_refl levels) nofun
  obtain ⟨cs, isOpen, hcs, -, hstays⟩ := hsame.stays hc hitems
  obtain ⟨-, w, hw, hrun⟩ := trivia_ensures mid () place (hcs.within hc) hskip
  have hreads := hcs.trans hw
  cases isOpen with
  | false =>
    obtain ⟨-, hread⟩ := hstays [] w (.closed (next_of_run hrun.at_end))
    rw [List.append_nil] at hread
    exact ⟨cs, w, hreads, hread, hrun.at_end⟩
  | true =>
    obtain ⟨-, hread⟩ := hstays w [] (hw.ahead ▸ .ended hrun next_nil)
    exact ⟨cs ++ w, [], (List.append_nil (cs ++ w)).symm ▸ hreads, hread, .nil⟩

/-- Where items end none begins, and behind trivia none does either. -/
theorem itemAt_misses_behind {levels : Nat} {xs : List Item} (hc : c.Within)
    (hitems : many (itemAt s levels) c = .matched xs mid)
    (hskip : trivia s mid = .matched () place) :
    MissesAt (itemAt s levels) place := by
  have hmiss : MissesAt (itemAt s levels) mid :=
    many_matched_misses (itemAt_advances levels) hc hitems
  have hsame : itemAt s levels mid = itemAt s levels place :=
    skipsFirst_itemAt levels (hskip.trans (trivia_again hskip).symm)
  unfold MissesAt at hmiss ⊢
  rwa [hsame] at hmiss

/-! ## Stylesheets -/

/-- **A valid stylesheet before the error.** If the report on a stylesheet names no rule, then it is
about a place in the text where no item begins, and the text before that place is a stylesheet. -/
theorem parseStylesheet_valid_before (s : Settings) (source : Source) {d : Diagnostic}
    (h : parseStylesheet s source = .error d) (hnone : d.rule = none) :
    ∃ k : Nat, d.offset = k ∧ k < source.chars.length ∧
      (∀ url, ∃ t, parseStylesheet s ⟨source.chars.take k, url⟩ = .ok t) ∧
        MissesAt (item s) (Cursor.of source.chars k 0) := by
  have hstart := Cursor.within_ofText source.chars
  rw [parseStylesheet_eq] at h
  rcases parse_misses h hnone with hmiss | ⟨v, mid, place, label, hread, hend, rfl⟩
  · exact absurd (misses_of_map hmiss) (neverMisses_manyUpTo _ _ _)
  obtain ⟨xs, hitems, -⟩ := map_matched.mp hread
  obtain ⟨hskip, hmore⟩ := endOf_missed hend
  obtain ⟨cs, w, hreads, hcut, hrun⟩ := items_cut hstart hitems hskip
  have hchars : source.chars = (cs ++ w) ++ place.ahead := hreads.ahead
  have hpos : place.pos = ((cs ++ w).length : Nat) := hreads.pos.trans (Int.zero_add _)
  refine ⟨(cs ++ w).length, hpos, ?_, fun url => ?_, ?_⟩
  · have hne : place.ahead ≠ [] := fun hnil =>
      Bool.eq_false_iff.mp hmore ((hreads.within hstart).atEnd_iff.mpr hnil)
    have hlength := congrArg List.length hchars
    rw [List.length_append] at hlength
    have hpositive := List.length_pos_iff.mpr hne
    omega
  · have hread : (map Stylesheet.mk (many (itemAt s s.maxDepth))).Consumes cs w := accepts_map hcut
    obtain ⟨v, hv, -⟩ := parse_accepted itemLabel url hread hrun
    refine ⟨v, ?_⟩
    rw [parseStylesheet_eq, hchars, List.take_left]
    exact hv
  · have hlevels : levelsLeft s (Cursor.of source.chars (cs ++ w).length 0) = s.maxDepth := by
      show ((s.maxDepth : Int) - 0).toNat = s.maxDepth
      omega
    have hmiss := itemAt_misses_behind hstart hitems hskip
    unfold MissesAt item atLevel
    rwa [hlevels, hreads.of_ofText]

/-- The brace behind an item that ends without a semicolon. -/
theorem lone_brace_valid_before :
    ∃ d, parseStylesheet ⟨1, true⟩ ⟨['a', ':', 'b', ' ', '}'], none⟩ = .error d ∧ d.offset = 4 ∧
      ∃ t, parseStylesheet ⟨1, true⟩ ⟨['a', ':', 'b', ' '], none⟩ = .ok t := by
  obtain ⟨d, herror, hnone, hoffset⟩ : ∃ d, parseStylesheet ⟨1, true⟩
      ⟨['a', ':', 'b', ' ', '}'], none⟩ = .error d ∧ d.rule = none ∧ d.offset = 4 :=
    ⟨_, rfl, rfl, rfl⟩
  obtain ⟨k, hk, -, hread, -⟩ := parseStylesheet_valid_before ⟨1, true⟩ _ herror hnone
  obtain rfl : k = 4 := by omega
  exact ⟨d, herror, hoffset, hread none⟩

end LessSyntax
