import LessSyntax.Proofs.ViablePrefix

/-!
# Coordinates of errors

The offset of a report lies in the text, its line counts the newlines before the offset, and its
column the characters behind the last of them. Where a character stands at the offset that is no end
of a line, it stands in that column of the source line which is shown, and the caret stands below
it. The form for a terminal adds codes to these two lines, by whatever markup, and nothing else.

* `Source.line_location`: the line of an offset, around the character that stands there.
* `Diagnostic.ShowsCaret`, `Diagnostic.pretty_showsCaret`: the last two lines of the form for a
  terminal.
* `Diagnostic.StandsAt`, `Entry.parse_standsAt`: a report is about a place in the text.
* `Entry.parse_coordinates`: the coordinates of every report, and its caret.
-/

namespace LessSyntax

/-! ## Lines -/

namespace Source

variable {before line k cs : List Char} {x : Char}

theorem lines_eq_splitOn (cs : List Char) : lines cs = cs.splitOn '\n' := by
  induction cs with
  | nil => rfl
  | cons c cs ih =>
    rw [lines, List.splitOn_cons_eq_if_modifyHead, ih]
    split
    · rfl
    · cases hlines : cs.splitOn '\n' with
      | nil => exact absurd hlines (List.splitOn_ne_nil '\n' cs)
      | cons line others => rfl

/-- Nothing stands behind the last newline. -/
def WholeLines (cs : List Char) : Prop := cs = [] ∨ ∃ others, cs = others ++ ['\n']

theorem lastLine_split (cs : List Char) :
    ∃ before, cs = before ++ lastLine cs ∧ WholeLines before ∧ '\n' ∉ lastLine cs := by
  refine ⟨(cs.reverse.dropWhile (· != '\n')).reverse, ?_, ?_, fun hmem => ?_⟩
  · rw [lastLine, ← List.reverse_append, List.takeWhile_append_dropWhile, List.reverse_reverse]
  · have hhead := List.head?_dropWhile_not (· != '\n') cs.reverse
    cases hdrop : cs.reverse.dropWhile (· != '\n') with
    | nil => exact .inl rfl
    | cons y others =>
      rw [hdrop] at hhead
      obtain rfl : y = '\n' := by simpa using hhead
      exact .inr ⟨others.reverse, List.reverse_cons⟩
  · have hline := List.all_eq_true.mp List.all_takeWhile _ (List.mem_reverse.mp hmem)
    exact absurd hline (by decide)

/-- A line stands in its place among the lines of the text. -/
theorem lines_getElem? (hbefore : WholeLines before) (hline : '\n' ∉ line)
    (hk : ∀ y ∈ k.head?, y = '\n') :
    (lines (before ++ (line ++ k)))[before.count '\n']? = some line := by
  obtain ⟨others, hothers⟩ : ∃ others, lines (line ++ k) = line :: others := by
    rw [lines_eq_splitOn]
    cases k with
    | nil =>
      rw [List.append_nil]
      exact ⟨[], List.splitOn_eq_singleton hline⟩
    | cons y k =>
      obtain rfl := hk y rfl
      exact ⟨_, List.splitOn_append_cons_self_of_not_mem hline k⟩
  rcases hbefore with rfl | ⟨above, rfl⟩
  · rw [List.nil_append, hothers]
    rfl
  · rw [List.append_assoc, lines_eq_splitOn, List.singleton_append,
      List.splitOn_append_cons_self, ← lines_eq_splitOn, ← lines_eq_splitOn, hothers,
      List.count_append, List.count_singleton_self, ← length_lines,
      List.getElem?_append_right (Nat.le_refl _), Nat.sub_self]
    rfl

theorem trimReturns_cons (u v : List Char) (hx : x ≠ '\r') :
    trimReturns (u ++ x :: v) = u ++ x :: trimReturns v := by
  have hreturn : (x == '\r') = false := by simpa using hx
  simp only [trimReturns, List.reverse_append, List.reverse_cons, List.append_assoc,
    List.dropWhile_append]
  cases hdrop : v.reverse.dropWhile (· == '\r') with
  | nil => simp [hreturn]
  | cons y others => simp

theorem newline_not_mem_trimReturns (h : '\n' ∉ cs) : '\n' ∉ trimReturns cs := fun hmem =>
  h (List.mem_reverse.mp ((List.dropWhile_sublist _).subset (List.mem_reverse.mp hmem)))

theorem line_natCast (source : Source) (index : Nat) :
    source.line ((index + 1 : Nat) : Int) = trimReturns ((lines source.chars).getD index []) := rfl

/-- The line of an offset begins with what stands behind the last newline before it, and goes on
with the character at it, unless that one ends the line. -/
theorem line_location {source : Source} {offset : Nat} (hx : source.chars[offset]? = some x)
    (hnewline : x ≠ '\n') (hreturn : x ≠ '\r') :
    '\n' ∉ source.line (source.location offset).line ∧ ∃ behind,
      source.line (source.location offset).line =
        lastLine (source.chars.take offset) ++ x :: behind := by
  obtain ⟨before, hsplit, hbefore, hstart⟩ := lastLine_split (source.chars.take offset)
  rw [location_eq, line_natCast]
  generalize lastLine (source.chars.take offset) = start at hsplit hstart
  obtain ⟨hoffset, hat⟩ := List.getElem?_eq_some_iff.mp hx
  obtain ⟨tail, more, hrest, htail, hmore⟩ : ∃ tail more, source.chars.drop (offset + 1) =
      tail ++ more ∧ '\n' ∉ tail ∧ ∀ y ∈ more.head?, y = '\n' := by
    refine ⟨_, _, (List.takeWhile_append_dropWhile (p := (· != '\n'))).symm, fun hmem => ?_, ?_⟩
    · exact absurd (List.all_eq_true.mp List.all_takeWhile _ hmem) (by decide)
    · intro y hy
      have hhead := List.head?_dropWhile_not (· != '\n') (source.chars.drop (offset + 1))
      rw [hy] at hhead
      simpa using hhead
  have hchars : source.chars = before ++ ((start ++ x :: tail) ++ more) := by
    rw [List.append_assoc, ← List.append_assoc before, ← hsplit, List.cons_append, ← hrest, ← hat,
      List.getElem_cons_drop, List.take_append_drop]
  have hline : '\n' ∉ start ++ x :: tail := by simp [hstart, htail, hnewline.symm]
  have hcount : (source.chars.take offset).count '\n' = before.count '\n' := by
    rw [hsplit, List.count_append, List.count_eq_zero_of_not_mem hstart, Nat.add_zero]
  have hget := lines_getElem? hbefore hline hmore
  rw [← hchars, ← hcount] at hget
  rw [List.getD_eq_getElem?_getD, hget, Option.getD_some]
  exact ⟨newline_not_mem_trimReturns hline, trimReturns tail, trimReturns_cons start tail hreturn⟩

/-- The last two lines of a text. -/
theorem lines_append (cs : List Char) {line last : List Char} (hline : '\n' ∉ line)
    (hlast : '\n' ∉ last) :
    lines (cs ++ '\n' :: (line ++ '\n' :: last)) = lines cs ++ [line, last] := by
  simp only [lines_eq_splitOn]
  rw [List.splitOn_append_cons_self, List.splitOn_append_cons_self_of_not_mem hline,
    List.splitOn_eq_singleton hlast]

end Source

/-! ## Lines for a terminal -/

namespace Diagnostic

open Terminal

variable {d : Diagnostic} {markup : String → String}

/-- The line of the source behind its number. -/
def numbered (d : Diagnostic) : List Char :=
  (toString d.line).toList ++ [' ', '|', ' '] ++ d.sourceLine

/-- The line with the caret. -/
def caret (d : Diagnostic) : List Char :=
  List.replicate (toString d.line).length ' ' ++ [' ', '|', ' '] ++
    List.replicate (d.column - 1).toNat ' ' ++ ['^']

/-- The form for a terminal ends with the line of the source and the caret. The markup adds its
codes before the line of the source and around the caret; what is left without them are the number
of the line and the caret in its place. -/
structure ShowsCaret (d : Diagnostic) (markup : String → String) : Prop where
  /-- Codes in the line of the source itself are not taken for those of the markup. -/
  lines_pretty : ∃ others number below,
    Source.lines (d.pretty markup).toList = others ++ [number ++ ' ' :: d.sourceLine, below] ∧
      stripCodes number ++ ' ' :: d.sourceLine = d.numbered ∧ stripCodes below = d.caret
  lines_stripCodes (h : escape ∉ d.sourceLine) : ∃ others,
    Source.lines (stripCodes (d.pretty markup).toList) = others ++ [d.numbered, d.caret]

theorem parts_newline : Parts '\n' := ⟨by decide, by decide, by decide, by decide⟩

theorem parts_blank : Parts ' ' := ⟨by decide, by decide, by decide, by decide⟩

theorem isAlphanum_of_mem_repr {n : Nat} {c : Char} (hc : c ∈ n.repr.toList) :
    c.isAlphanum = true := by
  rw [Nat.toList_repr] at hc
  have hdigit := Nat.isDigit_of_mem_toDigits (by decide) (by decide) hc
  simp [Char.isAlphanum, hdigit]

theorem isPlain_append {a b : String} (ha : IsPlain a) (hb : IsPlain b) : IsPlain (a ++ b) := by
  intro c hc
  rw [String.toList_append, List.mem_append] at hc
  exact hc.elim (ha c) (hb c)

theorem isPlain_toString (n : Int) : IsPlain (toString n) := by
  cases n with
  | ofNat n => exact fun c hc => .inl (isAlphanum_of_mem_repr hc)
  | negSucc n =>
    exact isPlain_append (a := "-") (by simp [IsPlain])
      fun c hc => .inl (isAlphanum_of_mem_repr hc)

theorem isPlain_stroke : IsPlain " |" := by simp [IsPlain]

theorem isPlain_caret : IsPlain "^" := by simp [IsPlain]

theorem isPlain_number (d : Diagnostic) : IsPlain (toString d.line ++ " |") :=
  isPlain_append (isPlain_toString d.line) isPlain_stroke

theorem newline_not_mem_of_isPlain {text : String} (h : IsPlain text) : '\n' ∉ text.toList :=
  fun hmem => absurd (h _ hmem) (by decide)

theorem newline_not_mem_numbered (hline : '\n' ∉ d.sourceLine) : '\n' ∉ d.numbered := by
  have hnumber := newline_not_mem_of_isPlain (isPlain_toString d.line)
  simp only [numbered, List.mem_append, hnumber, hline]
  decide

theorem newline_not_mem_caret (d : Diagnostic) : '\n' ∉ d.caret := by
  simp [caret, List.mem_replicate]

/-- The codes of the line of the source stand before it. -/
theorem toList_numberedLine (hmarkup : KeepsText markup) (hline : '\n' ∉ d.sourceLine) :
    ∃ number, (d.numberedLine markup).toList = number ++ ' ' :: d.sourceLine ∧
      stripCodes number ++ ' ' :: d.sourceLine = d.numbered ∧
      '\n' ∉ number ++ ' ' :: d.sourceLine := by
  have hblue : "blue" ∈ ["red", "blue"] := by simp
  have hstrip := hmarkup.stripCodes_tagged "blue" hblue d.isPlain_number
  have hnumber := hmarkup.not_mem hblue d.isPlain_number parts_newline
    (newline_not_mem_of_isPlain d.isPlain_number)
  refine ⟨(markup (tagged "blue" (toString d.line ++ " |"))).toList, ?_, ?_, ?_⟩
  · rw [numberedLine, String.toList_append, String.toList_append, List.append_assoc,
      String.toList_ofList (l := d.sourceLine)]
    rfl
  · rw [hstrip, numbered, String.toList_append, List.append_assoc, List.append_assoc]
    rfl
  · rw [List.mem_append, List.mem_cons, not_or, not_or]
    exact ⟨hnumber, by decide, hline⟩

theorem escape_not_mem_spaces (count : Nat) : escape ∉ (spaces count).toList := by
  simp [spaces, List.mem_replicate, escape]

/-- Without its codes the line under the source is blank but for the stroke and the caret. -/
theorem stripCodes_caretLine (hmarkup : KeepsText markup) :
    stripCodes (d.caretLine markup).toList = d.caret := by
  have hstroke := hmarkup.stripCodes_tagged "blue" (by simp) isPlain_stroke
  have hmark := hmarkup.stripCodes_tagged "red" (by simp) isPlain_caret
  have hsplit : (d.caretLine markup).toList = d.gutter.toList ++
      ((markup (tagged "blue" " |")).toList ++ ' ' ::
        ((spaces (d.column - 1).toNat).toList ++ (markup (tagged "red" "^")).toList)) := by
    simp [caretLine]
  rw [hsplit, gutter, stripCodes_append (escape_not_mem_spaces _),
    stripCodes_append_cons parts_blank, stripCodes_append (escape_not_mem_spaces _), hstroke, hmark]
  simp [caret, spaces]

theorem toList_pretty (markup : String → String) (hne : d.sourceLine ≠ []) :
    ∃ above, (d.pretty markup).toList =
      above ++ '\n' :: ((d.numberedLine markup).toList ++ '\n' :: (d.caretLine markup).toList) := by
  have hshown : d.sourceLine.isEmpty = false := by simpa using hne
  refine ⟨(markup (tagged "red" "error") ++ ": " ++ d.message).toList ++ '\n' ::
    (d.gutter ++ markup (tagged "blue" "-->") ++ " " ++ d.location).toList, ?_⟩
  rw [pretty, excerpt, hshown, if_neg Bool.false_ne_true, String.toList_intercalate]
  simp [List.intercalate_cons_cons]

/-- Where the line of the source is not empty, it is shown with the caret below it. -/
theorem pretty_showsCaret (hmarkup : KeepsText markup) (hline : '\n' ∉ d.sourceLine)
    (hne : d.sourceLine ≠ []) : d.ShowsCaret markup := by
  obtain ⟨above, hpretty⟩ := toList_pretty markup hne
  obtain ⟨number, hfirst, hnumbered, hend⟩ := toList_numberedLine hmarkup hline
  have hcaret := stripCodes_caretLine (d := d) hmarkup
  rw [hfirst] at hpretty
  refine ⟨⟨Source.lines above, number, (d.caretLine markup).toList, ?_, hnumbered, hcaret⟩,
    fun hescape => ?_⟩
  · -- A newline among the codes of the caret would still be there without them.
    have hlast : '\n' ∉ (d.caretLine markup).toList := fun hmem =>
      newline_not_mem_caret d (hcaret ▸ mem_stripCodes parts_newline hmem)
    rw [hpretty, Source.lines_append above hend hlast]
  · have hstrip : stripCodes (number ++ ' ' :: d.sourceLine) = d.numbered := by
      rw [stripCodes_append_cons parts_blank, stripCodes_eq_self hescape, hnumbered]
    rw [hpretty, stripCodes_append_cons parts_newline, stripCodes_append_cons parts_newline, hstrip,
      hcaret, Source.lines_append _ (newline_not_mem_numbered hline) (newline_not_mem_caret d)]
    exact ⟨_, rfl⟩

/-- Besides the stroke behind the number the caret stands alone. -/
theorem filter_caret (d : Diagnostic) : d.caret.filter (· ≠ ' ') = ['|', '^'] := by
  simp [caret]

theorem caret_getElem? {column : Nat} (hcolumn : d.column - 1 = column) :
    d.caret[(toString d.line).length + 3 + column]? = some '^' := by
  have hlength : (toString d.line).length + 3 + column =
      (List.replicate (toString d.line).length ' ' ++ [' ', '|', ' '] ++
        List.replicate (d.column - 1).toNat ' ').length := by
    simp only [hcolumn, List.length_append, List.length_replicate, List.length_cons,
      List.length_nil, Int.toNat_natCast]
  rw [caret, hlength, List.getElem?_concat_length]

theorem numbered_getElem? {column : Nat} {x : Char} (hx : d.sourceLine[column]? = some x) :
    d.numbered[(toString d.line).length + 3 + column]? = some x := by
  have hlength : (toString d.line).length + 3 = ((toString d.line).toList ++ [' ', '|', ' ']).length
      := by rw [List.length_append, String.length_toList]; rfl
  rw [numbered, hlength, List.getElem?_append_right (Nat.le_add_right _ _), Nat.add_sub_cancel_left,
    hx]

end Diagnostic

open Grammar Rule

variable {α β : Type} {s : Settings} {source : Source} {rule : Rule α} {rule' : Rule β}
  {expected : String} {d : Diagnostic}

/-! ## Places of reports -/

/-- The report is about that place of the source. -/
structure Diagnostic.StandsAt (d : Diagnostic) (source : Source) (offset : Nat) : Prop where
  offset_eq : d.offset = offset
  le_length : offset ≤ source.chars.length
  line_eq : d.line = (source.location offset).line
  column_eq : d.column = (source.location offset).column
  sourceLine_eq : d.sourceLine = source.line (source.location offset).line

theorem standsAt_of_readsTo {place : Cursor} {cs : List Char} {label : String}
    {blamed : Option String} (h : (Cursor.ofText source.chars).ReadsTo cs place) :
    (source.report place label blamed).StandsAt source cs.length := by
  have hpos : place.pos = cs.length := h.pos.trans (Int.zero_add _)
  have hchars : source.chars = cs ++ place.ahead := h.ahead
  unfold Source.report
  rw [hpos]
  refine ⟨rfl, ?_, rfl, rfl, rfl⟩
  rw [hchars, List.length_append]
  exact Nat.le_add_right _ _

/-- A rule that stops in its text only stops there as well when it has to read all of the text. -/
theorem readsTo_of_stops {F K : List Char → List Char → Prop} {place : Cursor}
    (h : ViableItem s.lineComments F K rule rule')
    (hstop : (whole s rule expected (Cursor.ofText source.chars)).StopsAt place) :
    ∃ cs, (Cursor.ofText source.chars).ReadsTo cs place := by
  have hstart := Cursor.within_ofText source.chars
  rcases Outcome.stopsAt_bind (Outcome.stopsAt_map hstop) with hstop | ⟨v, mid, hrule, hstop⟩
  · obtain ⟨cs, -, hcs, -⟩ := h.resumes trivial hstart hstop
    exact ⟨_, hcs⟩
  · obtain ⟨cs, -, hcs, -⟩ := h.stays hstart hrule
    obtain ⟨w, hw, -⟩ :=
      token_stops endOf_stops (hcs.within hstart) (Outcome.stopsAt_map hstop)
    exact ⟨_, hcs.trans_to hw.to⟩

/-- A rule that stops in its text only is reported on in its text only. -/
theorem standsAt_of_error {F K : List Char → List Char → Prop}
    (h : ViableItem s.lineComments F K rule rule')
    (herror : parse s rule source expected = .error d) :
    ∃ k, d.StandsAt source k := by
  obtain ⟨place, label, blamed, hstop, rfl⟩ := Outcome.stopsAt_of_error herror
  obtain ⟨cs, hcs⟩ := readsTo_of_stops h hstop
  exact ⟨_, standsAt_of_readsTo hcs⟩

theorem Entry.parse_standsAt (entry : Entry) (h : entry.parse s source = .error d) :
    ∃ k, d.StandsAt source k := by
  cases entry with
  | stylesheet =>
    have hitems := viableItem_map (f := Stylesheet.mk) (g := id) (items_viable (s := s) s.maxDepth)
    exact standsAt_of_error hitems
      (parseStylesheet_eq.symm.trans (Except.error_of_map h))
  | item =>
    exact standsAt_of_error (itemAt_viable s.maxDepth)
      (parseItem_eq.symm.trans (Except.error_of_map h))
  | declaration =>
    exact standsAt_of_error (declarationAt_viable s.maxDepth)
      (parseDeclaration_eq.symm.trans (Except.error_of_map h))
  | value =>
    exact standsAt_of_error (viableItem_of_viable (valueAt_viable s.maxDepth))
      (parseValue_eq.symm.trans (Except.error_of_map h))
  | selectorGroup =>
    exact standsAt_of_error (viableItem_of_viable selectorGroup_viable)
      (Except.error_of_map h)

/-! ## Coordinates -/

namespace Diagnostic.StandsAt

variable {k : Nat} (h : d.StandsAt source k)

include h

theorem line_sub_one : d.line - 1 = (source.chars.take k).count '\n' := by
  rw [h.line_eq, Source.location_eq]
  dsimp only
  omega

theorem column_sub_one : d.column - 1 = (Source.lastLine (source.chars.take k)).length := by
  rw [h.column_eq, Source.location_column h.le_length]
  omega

/-- The character at the place stands in the column of the line that is shown, and the caret stands
below it. -/
theorem shows {x : Char} (hx : source.chars[k]? = some x) (hnewline : x ≠ '\n')
    (hreturn : x ≠ '\r') {markup : String → String} (hmarkup : Terminal.KeepsText markup) :
    d.sourceLine[(Source.lastLine (source.chars.take k)).length]? = some x ∧
      d.ShowsCaret markup := by
  obtain ⟨hshown, behind, hsource⟩ := Source.line_location hx hnewline hreturn
  rw [← h.sourceLine_eq] at hshown hsource
  exact ⟨by rw [hsource]; simp, pretty_showsCaret hmarkup hshown (by rw [hsource]; simp)⟩

end Diagnostic.StandsAt

/-- **Coordinates of errors.** The offset of a report lies in the text. Its line and its column
count the newlines before the offset and the characters behind the last of them. If the character at
the offset ends no line, it stands in that column of the line that is shown, and the caret below it;
this is what the form for a terminal ends with, but for the codes that a markup adds to plain
texts. -/
theorem Entry.parse_coordinates (entry : Entry) (s : Settings) (source : Source) {d : Diagnostic}
    (h : entry.parse s source = .error d) {markup : String → String}
    (hmarkup : Terminal.KeepsText markup) :
    ∃ k : Nat, d.offset = k ∧ k ≤ source.chars.length ∧
      d.line - 1 = (source.chars.take k).count '\n' ∧
      (∃ before line, source.chars.take k = before ++ line ∧ Source.WholeLines before ∧
        '\n' ∉ line ∧ d.column - 1 = line.length) ∧
      ∀ x, source.chars[k]? = some x → x ≠ '\n' → x ≠ '\r' →
        ∃ column : Nat, d.column - 1 = column ∧ d.sourceLine[column]? = some x ∧
          d.ShowsCaret markup ∧ d.caret.filter (· ≠ ' ') = ['|', '^'] ∧
          ∃ index : Nat, d.numbered[index]? = some x ∧ d.caret[index]? = some '^' := by
  obtain ⟨k, hat⟩ := entry.parse_standsAt h
  obtain ⟨before, hsplit, hbefore, hlast⟩ := Source.lastLine_split (source.chars.take k)
  have hcolumn := hat.column_sub_one
  refine ⟨k, hat.offset_eq, hat.le_length, hat.line_sub_one,
    ⟨before, _, hsplit, hbefore, hlast, hcolumn⟩, fun x hx hnewline hreturn => ?_⟩
  obtain ⟨hshown, hcaret⟩ := hat.shows hx hnewline hreturn hmarkup
  exact ⟨_, hcolumn, hshown, hcaret, d.filter_caret, _, Diagnostic.numbered_getElem? hshown,
    Diagnostic.caret_getElem? hcolumn⟩

/-- The caret below a brace that closes nothing, on the second line. -/
theorem lone_brace_caret :
    ∃ d, Entry.stylesheet.parse ⟨1, true⟩ ⟨['a', ':', 'b', ';', '\n', ' ', '}'], none⟩ = .error d ∧
      d.offset = 6 ∧ d.line - 1 = 1 ∧ Terminal.KeepsText Terminal.markup ∧
      (∃ others, Source.lines (Terminal.stripCodes d.pretty.toList) =
        others ++ [d.numbered, d.caret]) ∧
      ∃ index : Nat, d.numbered[index]? = some '}' ∧ d.caret[index]? = some '^' := by
  obtain ⟨d, herror, hoffset, hline⟩ : ∃ d, Entry.stylesheet.parse ⟨1, true⟩
      ⟨['a', ':', 'b', ';', '\n', ' ', '}'], none⟩ = .error d ∧ d.offset = 6 ∧
        d.sourceLine = [' ', '}'] := ⟨_, rfl, rfl, rfl⟩
  have hmarkup := Terminal.keepsText_markup
  obtain ⟨k, hk, -, hbreaks, -, hshows⟩ := Entry.parse_coordinates .stylesheet _ _ herror hmarkup
  obtain rfl : k = 6 := by omega
  obtain ⟨-, -, -, hcaret, -, index, hbrace, hbelow⟩ :=
    hshows '}' rfl (by decide) (by decide)
  have hescape : Terminal.escape ∉ d.sourceLine := by
    rw [hline]
    decide
  exact ⟨d, herror, hoffset, hbreaks, hmarkup, hcaret.lines_stripCodes hescape, index, hbrace,
    hbelow⟩

end LessSyntax
