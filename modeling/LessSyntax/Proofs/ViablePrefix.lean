import LessSyntax.Proofs.ItemViability

/-!
# What stands before an error

The place that a report names is never too far into the text. What stands before it begins a text
that the same entry reads, with one more level left: every string, address, call, selector, block
and comment that has been begun there can be finished, and where the report says that one level too
many is opened, it can be opened.

* `parse_stops`: where a report says that something else was expected.
* `parse_viable`: what stands there, for a rule that is compared with another one.
* `Entry.parse_viablePrefix`: the same for every entry.
-/

namespace LessSyntax

open Grammar Rule

variable {α β : Type} {s s' : Settings} {source : Source} {rule : Rule α} {rule' : Rule β}
  {expected : String} {e : Diagnostic}

/-- The beginning of the source that the report leaves begins something that is read. -/
def Source.BeginsBefore (source : Source) (e : Diagnostic) (read : Source → Except Diagnostic α) :
    Prop :=
  ∃ k : Nat, e.offset = k ∧ k ≤ source.chars.length ∧
    ∃ x v, read ⟨source.chars.take k ++ x, source.url⟩ = .ok v

/-! ## Whole sources -/

/-- A report is about the place where the outcome says that something else was expected. -/
theorem Outcome.stopsAt_of_error {outcome : Outcome α} (h : outcome.answer source = .error e) :
    ∃ place label blamed, outcome.StopsAt place ∧ e = source.report place label blamed := by
  cases outcome with
  | matched v rest => cases h
  | missed place label =>
    cases h
    exact ⟨place, label, none, .missed, rfl⟩
  | failed place label blamed =>
    cases h
    exact ⟨place, label, some blamed, .failed, rfl⟩

/-- The rule stops there, or what is left behind it is not all trivia. -/
theorem parse_stops (h : parse s rule source expected = .error e) :
    ∃ place label blamed, e = source.report place label blamed ∧
      ((rule (Cursor.ofText source.chars)).StopsAt place ∨
        ∃ v mid, rule (Cursor.ofText source.chars) = .matched v mid ∧
          (token s (endOf expected) mid).StopsAt place) := by
  obtain ⟨place, label, blamed, hstop, hreport⟩ := Outcome.stopsAt_of_error h
  refine ⟨place, label, blamed, hreport, ?_⟩
  rcases Outcome.stopsAt_bind (Outcome.stopsAt_map hstop) with hstop | ⟨v, mid, hrule, hstop⟩
  · exact .inl hstop
  · exact .inr ⟨v, mid, hrule, Outcome.stopsAt_map hstop⟩

/-- A text up to the place of the report, completed, from a text that the other rule reads. -/
theorem begins_of_reads {place : Cursor} {cs y z : List Char} (x : List Char) (expected : String)
    (hoffset : e.offset = place.pos) (hcs : (Cursor.ofText source.chars).ReadsTo cs place)
    (hsplit : cs ++ x = y ++ z) (hread : rule'.Consumes y z)
    (hrun : TriviaRun s'.lineComments z []) :
    source.BeginsBefore e fun source => parse s' rule' source expected := by
  have hpos : place.pos = (cs.length : Int) := by
    rw [hcs.pos]
    exact Int.zero_add _
  have hchars : source.chars = cs ++ place.ahead := hcs.ahead
  refine ⟨cs.length, hoffset.trans hpos, ?_, x, ?_⟩
  · rw [hchars, List.length_append]
    exact Nat.le_add_right _ _
  · obtain ⟨v, hv, -⟩ := parse_accepted expected source.url hread hrun
    refine ⟨v, ?_⟩
    rw [hchars, List.take_left, hsplit]
    exact hv

/-- A rule that is compared with another one, which reads what ends with a newline too. -/
theorem parse_viable {F K : List Char → List Char → Prop}
    (h : ViableItem s.lineComments F K rule rule') (hlines : s'.lineComments = s.lineComments)
    (hend : F [] []) (hbehind : ∀ w k, TriviaRun s.lineComments w k → F (w ++ k) (w ++ ['\n']))
    (herror : parse s rule source expected = .error e) :
    source.BeginsBefore e fun source => parse s' rule' source expected := by
  have hstart := Cursor.within_ofText source.chars
  obtain ⟨place, label, blamed, rfl, hstop | ⟨v, mid, hrule, hstop⟩⟩ := parse_stops herror
  · obtain ⟨cs, x, hcs, hresumes⟩ := h.resumes trivial hstart hstop
    exact begins_of_reads x expected rfl hcs (List.append_nil _).symm (hresumes [] hend).2 .nil
  · obtain ⟨cs, isOpen, hcs, -, hstays⟩ := h.stays hstart hrule
    obtain ⟨w, hw, hrun⟩ := token_stops endOf_stops (hcs.within hstart) hstop
    obtain ⟨x, y, z, hsplit, hz, hfollows⟩ := follows_run hrun isOpen
    have hread := (hstays y (z ++ []) (hw.ahead ▸ hfollows [] (hbehind w _ hrun) hend)).2
    rw [List.append_nil] at hread
    refine begins_of_reads x expected rfl (hcs.trans_to hw.to) ?_ hread (hlines ▸ hz [])
    rw [List.append_assoc, hsplit, List.append_assoc]

/-! ## Entries -/

/-- The limit on the nesting is named in failures only. -/
theorem consumes_of_limits {nest : α → Nat} {levels : Nat} {small large : Rule α}
    {cs l : List Char} (h : Limits s nest levels small large) (hread : small.Consumes cs l) :
    large.Consumes cs l := by
  intro c hc hahead
  obtain ⟨v, hv, -⟩ := hread c hc hahead
  exact ⟨v, h.of_matched hc hv, trivial⟩

/-- Behind a run of trivia and a newline nothing is left. -/
theorem next_of_newline {lineComments : Bool} {p : Char → Prop} {w k : List Char}
    (hrun : TriviaRun lineComments w k) : Next lineComments p (w ++ ['\n']) :=
  next_of_run (hrun.newline [])

theorem ahead_of_newline {lineComments strict : Bool} {p : Char → Prop} {w k : List Char}
    (hrun : TriviaRun lineComments w k) :
    Ahead lineComments strict p (w ++ k) (w ++ ['\n']) :=
  ⟨Replaces.append (.inl (atBreak_newline [])) w, next_of_newline hrun⟩

theorem ahead_nil {lineComments strict : Bool} {p : Char → Prop} :
    Ahead lineComments strict p [] [] :=
  ⟨.inl atBreak_nil, next_nil⟩

theorem Except.error_of_map {f : α → β} {answer : Except Diagnostic α}
    (h : answer.map f = .error e) : answer = .error e := by
  cases answer with
  | error e' =>
    cases h
    rfl
  | ok v => cases h

/-- What is made of the value does not matter. -/
theorem begins_of_viable {F K : List Char → List Char → Prop}
    {small large : Source → Except Diagnostic α} {f : α → β} {rule' : Rule α}
    (h : ViableItem s.lineComments F K rule rule')
    (hlines : s'.lineComments = s.lineComments) (hend : F [] [])
    (hbehind : ∀ w k, TriviaRun s.lineComments w k → F (w ++ k) (w ++ ['\n']))
    (hsmall : small source = parse s rule source expected)
    (hlarge : ∀ source, large source = parse s' rule' source expected)
    (herror : (small source).map f = .error e) :
    source.BeginsBefore e fun source => (large source).map f := by
  obtain ⟨k, hoffset, hle, x, v, hread⟩ :=
    parse_viable h hlines hend hbehind (hsmall.symm.trans (Except.error_of_map herror))
  refine ⟨k, hoffset, hle, x, f v, ?_⟩
  dsimp only at hread ⊢
  rw [hlarge, hread]
  rfl

/-- **Errors stand at the end of a viable prefix.** The text before the place of a report is the
beginning of one that the same entry reads, with one more level of nesting. -/
theorem Entry.parse_viablePrefix (entry : Entry) (s : Settings) (source : Source) {e : Diagnostic}
    (h : entry.parse s source = .error e) :
    ∃ k : Nat, e.offset = k ∧ k ≤ source.chars.length ∧
      ∃ x t, entry.parse { s with maxDepth := s.maxDepth + 1 }
        ⟨source.chars.take k ++ x, source.url⟩ = .ok t := by
  generalize hdeeper : ({ s with maxDepth := s.maxDepth + 1 } : Settings) = s'
  have hlines : s'.lineComments = s.lineComments := by rw [← hdeeper]
  have hdepth : s'.maxDepth = s.maxDepth + 1 := by rw [← hdeeper]
  cases entry with
  | stylesheet =>
    have hlimits : Limits s Item.nestingAll (s.maxDepth + 1) (many (itemAt s (s.maxDepth + 1)))
        (many (itemAt s' s'.maxDepth)) :=
      limits_many rfl (fun _ _ => rfl) (itemAt_limits hlines (Nat.le_of_eq hdepth.symm))
    have hitems : ViableItem s.lineComments (NoItem s.lineComments) (NoSemicolon s.lineComments)
        (many (itemAt s s.maxDepth)) (many (itemAt s' s'.maxDepth)) :=
      (items_viable s.maxDepth).trans fun _ _ => consumes_of_limits hlimits
    exact begins_of_viable (viableItem_map hitems) hlines next_nil (fun _ _ => next_of_newline)
      parseStylesheet_eq (fun _ => parseStylesheet_eq) h
  | item =>
    have hitem : ViableItem s.lineComments (NoSemicolon s.lineComments) (NoSemicolon s.lineComments)
        (itemAt s s.maxDepth) (itemAt s' s'.maxDepth) :=
      (itemAt_viable s.maxDepth).trans fun _ _ =>
        consumes_of_limits (itemAt_limits hlines (Nat.le_of_eq hdepth.symm))
    exact begins_of_viable hitem hlines next_nil (fun _ _ => next_of_newline) parseItem_eq
      (fun _ => parseItem_eq) h
  | declaration =>
    have hdeclaration : ViableItem s.lineComments Anything
        (Ahead s.lineComments false (isNameChar · = true)) (declarationAt s s.maxDepth)
        (declarationAt s' s'.maxDepth) :=
      (declarationAt_viable s.maxDepth).trans fun _ _ =>
        consumes_of_limits (declarationAt_limits hlines (Nat.le_of_eq hdepth.symm))
    exact begins_of_viable hdeclaration hlines trivial (fun _ _ _ => trivial) parseDeclaration_eq
      (fun _ => parseDeclaration_eq) h
  | value =>
    have hvalue : Viable (Ahead s.lineComments true (· ∈ valueEnds))
        (Ahead s.lineComments true (· ∉ nonHeads)) (valueAt s s.maxDepth)
        (valueAt s' s'.maxDepth) :=
      (valueAt_viable s.maxDepth).trans fun _ _ =>
        consumes_of_limits (valueAt_limits hlines (Nat.le_of_eq hdepth.symm))
    exact begins_of_viable (viableItem_of_viable hvalue) hlines ahead_nil
      (fun _ _ => ahead_of_newline) parseValue_eq (fun _ => parseValue_eq) h
  | selectorGroup =>
    have hgroup : Viable (Ahead s.lineComments false (· ≠ ','))
        (Ahead s.lineComments false SelectorHead) (Grammar.selectorGroup s)
        (Grammar.selectorGroup s') := by
      rw [selectorGroup_congr hlines]
      exact selectorGroup_viable
    exact begins_of_viable (viableItem_of_viable hgroup) hlines ahead_nil
      (fun _ _ => ahead_of_newline) rfl (fun _ => rfl) h

/-- A call that is one level too deep is named before its parenthesis. -/
theorem call_viablePrefix :
    ∃ e, Entry.stylesheet.parse ⟨1, true⟩ ⟨['a', '{', 'b', ':', 'f', '(', '"'], none⟩ = .error e ∧
      e.offset = 5 ∧ ∃ x t, Entry.stylesheet.parse ⟨2, true⟩
        ⟨['a', '{', 'b', ':', 'f'] ++ x, none⟩ = .ok t := by
  obtain ⟨e, herror, hoffset⟩ : ∃ e, Entry.stylesheet.parse ⟨1, true⟩
      ⟨['a', '{', 'b', ':', 'f', '(', '"'], none⟩ = .error e ∧ e.offset = 5 := ⟨_, rfl, rfl⟩
  obtain ⟨k, hk, -, x, t, hread⟩ := Entry.parse_viablePrefix .stylesheet ⟨1, true⟩ _ herror
  obtain rfl : k = 5 := by omega
  exact ⟨e, herror, hoffset, x, t, hread⟩

end LessSyntax
