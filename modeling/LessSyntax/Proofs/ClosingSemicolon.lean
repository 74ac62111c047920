import LessSyntax.Proofs.Concatenation

/-!
# The closing semicolon

A stylesheet, or the block at its end, closes with a semicolon. Without the semicolon the same items
are read from the same places. It may end a declaration or a call, which the end of the text or the
brace ends as well; it may stand behind a block that is a value; or it may lie in a comment. In all
other places the stylesheet could not be read with the semicolon.

* `items_dropped`: the items of a text with and without the semicolon.
* `closing_semicolon_optional`: a stylesheet with and without the semicolon.
-/

namespace LessSyntax

open Grammar Rule Cursor

variable {s : Settings} {mid : Cursor} {xs : List Item} {levels : Nat} {cs others : List Char}

theorem inStep_dropped (hothers : others = [] ∨ others = ['}']) (cs : List Char) :
    InStep (.dropped others hothers : Tails s.lineComments) (ofText (cs ++ ';' :: others))
      (ofText (cs ++ others)) :=
  .inl ⟨cs, within_ofText _, within_ofText _, rfl, rfl, rfl, fun _ h => nomatch h⟩

/-- Items that are followed by nothing but trivia are the same without the semicolon. -/
theorem items_dropped (hothers : others = [] ∨ others = ['}'])
    (hrun : many (itemAt s levels) (ofText (cs ++ ';' :: others)) = .matched xs mid)
    (hend : mid.Nears s.lineComments []) :
    ∃ mid', many (itemAt s levels) (ofText (cs ++ others)) = .matched xs mid' ∧
      mid'.Nears s.lineComments [] := by
  obtain ⟨mid', l, hrun', ⟨-, rfl⟩, hend'⟩ :=
    items_second (inStep_dropped hothers cs) hrun hend id fun _ => id
  exact ⟨mid', hrun', hend'⟩

theorem parseStylesheet_dropped {url url' : Option String} {t : Stylesheet}
    (hothers : others = [] ∨ others = ['}'])
    (h : parseStylesheet s ⟨cs ++ ';' :: others, url⟩ = .ok t) :
    parseStylesheet s ⟨cs ++ others, url'⟩ = .ok t := by
  obtain ⟨mid, hrun, hend⟩ := parseStylesheet_ok_iff.mp h
  exact parseStylesheet_ok_iff.mpr (items_dropped hothers hrun hend)

/-- The semicolon at the end of a stylesheet, or before the brace at its end, may be left out. The
stylesheet is the same then, with all its places. -/
theorem closing_semicolon_optional (s : Settings) (p : List Char) (url url' : Option String)
    (t : Stylesheet) :
    (parseStylesheet s ⟨p ++ [';'], url⟩ = .ok t → parseStylesheet s ⟨p, url'⟩ = .ok t) ∧
      (parseStylesheet s ⟨p ++ [';', '}'], url⟩ = .ok t →
        parseStylesheet s ⟨p ++ ['}'], url'⟩ = .ok t) := by
  refine ⟨fun h => ?_, parseStylesheet_dropped (.inr rfl)⟩
  have hwithout : parseStylesheet s ⟨p ++ [], url'⟩ = .ok t := parseStylesheet_dropped (.inl rfl) h
  rwa [List.append_nil] at hwithout

/-- A declaration at the end of a stylesheet, and one at the end of a block. -/
theorem declaration_without_semicolon :
    ∃ t u, parseStylesheet ⟨1, true⟩ ⟨['b', ':', 'c'] ++ [';'], none⟩ = .ok t ∧
      parseStylesheet ⟨1, true⟩ ⟨['b', ':', 'c'], none⟩ = .ok t ∧
      parseStylesheet ⟨1, true⟩ ⟨['a', '{', 'b', ':', 'c'] ++ [';', '}'], none⟩ = .ok u ∧
      parseStylesheet ⟨1, true⟩ ⟨['a', '{', 'b', ':', 'c'] ++ ['}'], none⟩ = .ok u := by
  obtain ⟨t, ht⟩ : ∃ t,
      parseStylesheet ⟨1, true⟩ ⟨['b', ':', 'c'] ++ [';'], none⟩ = .ok t := ⟨_, rfl⟩
  obtain ⟨u, hu⟩ : ∃ u,
      parseStylesheet ⟨1, true⟩ ⟨['a', '{', 'b', ':', 'c'] ++ [';', '}'], none⟩ = .ok u := ⟨_, rfl⟩
  exact ⟨t, u, ht, (closing_semicolon_optional _ _ none none t).1 ht, hu,
    (closing_semicolon_optional _ _ none none u).2 hu⟩

end LessSyntax
