import LessSyntax.Parse
import LessSyntax.Proofs.TriviaRun

/-!
# Whole sources

A rule reads a whole source when it matches at the start and nothing but trivia is left behind it.

* `parse_matched`: what a source is read as is a match at its start, with trivia behind it.
* `parse_accepted`: a source is read where the rule accepts its text, up to trivia at the end.
-/

namespace LessSyntax

open Grammar Rule

variable {α : Type} {s : Settings} {source : Source} {rule : Rule α} {expected : String} {v : α}

theorem parse_matched (h : parse s rule source expected = .ok v) :
    ∃ rest stop, rule (Cursor.ofText source.chars) = .matched v rest ∧
      token s (endOf expected) rest = .matched () stop := by
  unfold parse whole at h
  cases hwhole : terminated rule (token s (endOf expected)) (Cursor.ofText source.chars) with
  | missed place found =>
    rw [hwhole] at h
    cases h
  | failed place found blamed =>
    rw [hwhole] at h
    cases h
  | matched w stop =>
    rw [hwhole] at h
    cases h
    obtain ⟨⟨_, _⟩, hboth, rfl⟩ := map_matched.mp hwhole
    obtain ⟨rest, hrule, hend⟩ := both_matched.mp hboth
    exact ⟨rest, stop, hrule, hend⟩

theorem parse_of_matched {rest stop : Cursor}
    (hrule : rule (Cursor.ofText source.chars) = .matched v rest)
    (hend : token s (endOf expected) rest = .matched () stop) :
    parse s rule source expected = .ok v := by
  unfold parse whole
  have hboth : both rule (token s (endOf expected)) (Cursor.ofText source.chars)
      = .matched (v, ()) stop := both_matched.mpr ⟨rest, hrule, hend⟩
  rw [show terminated rule (token s (endOf expected)) (Cursor.ofText source.chars)
    = .matched v stop from map_matched.mpr ⟨_, hboth, rfl⟩]
  rfl

theorem accepts_endOf (expected : String) : (endOf expected).Accepts [] [] fun _ => True := by
  intro c hc hahead
  refine ⟨(), ?_, trivial⟩
  rw [endOf, if_pos (hc.atEnd_iff.mpr hahead), List.length_nil, Cursor.advance_zero]

/-- Trivia may be left behind the text that the rule accepts. -/
theorem parse_accepted {cs w : List Char} {P : α → Prop} (expected : String) (url : Option String)
    (hrule : rule.Accepts cs w P) (hrun : TriviaRun s.lineComments w []) :
    ∃ v, parse s rule ⟨cs ++ w, url⟩ expected = .ok v ∧ P v := by
  have hstart := Cursor.within_ofText (cs ++ w)
  obtain ⟨v, hv, hP⟩ := hrule _ hstart rfl
  have hrest := hstart.reads (Cursor.ahead_ofText (cs ++ w))
  obtain ⟨_, hend, -⟩ := accepts_token hrun noTrivia_nil (accepts_endOf expected) _
    (hrest.within hstart) (by rw [hstart.ahead_advance rfl, List.append_nil, List.append_nil])
  exact ⟨v, parse_of_matched hv hend, hP⟩

/-- Nothing is open at the start of a text, so that all levels are left. -/
theorem atLevel_ofText (rule : Nat → Rule α) (text : List Char) :
    atLevel s rule (Cursor.ofText text) = rule s.maxDepth (Cursor.ofText text) := by
  have hlevels : levelsLeft s (Cursor.ofText text) = s.maxDepth := by
    show ((s.maxDepth : Int) - 0).toNat = s.maxDepth
    omega
  unfold atLevel
  rw [hlevels]

theorem parse_atLevel (rule : Nat → Rule α) :
    parse s (atLevel s rule) source expected = parse s (rule s.maxDepth) source expected := by
  unfold parse whole terminated map both
  rw [atLevel_ofText]

theorem parseStylesheet_eq : parseStylesheet s source =
    parse s (map Stylesheet.mk (many (itemAt s s.maxDepth))) source itemLabel :=
  parse_atLevel fun levels => map Stylesheet.mk (many (itemAt s levels))

theorem parseItem_eq : parseItem s source = parse s (itemAt s s.maxDepth) source endLabel :=
  parse_atLevel (itemAt s)

theorem parseDeclaration_eq :
    parseDeclaration s source = parse s (declarationAt s s.maxDepth) source endLabel :=
  parse_atLevel (declarationAt s)

theorem parseValue_eq : parseValue s source = parse s (valueAt s s.maxDepth) source endLabel :=
  parse_atLevel (valueAt s)

end LessSyntax
