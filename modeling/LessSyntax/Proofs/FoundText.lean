import LessSyntax.Proofs.Coordinates
import LessSyntax.Proofs.StoppingPlaces

/-!
# What a report has found

A report quotes the text at its place up to white space, and no more than twelve characters of it.
At the end of a source it says so instead. Where white space stands at the place itself the
quotation is empty. White space that separates the parts of a stylesheet seldom stands there, since
rules stop behind it; a name that is missing behind its mark, an interpolation, and a string or an
address that a newline ends are all that remains.

* `foundChars_prefix`, `foundChars_eq_nil`: the quoted characters.
* `Entry.reported`: every report is about a place where the grammar may stop.
* `Entry.parse_found`: what the message of a report quotes.
* `newline_not_quoted`: a newline that ends a string is not quoted.
-/

namespace LessSyntax

open Grammar Rule

/-! ## Quotations -/

section

variable {ahead : List Char}

theorem foundChars_prefix (ahead : List Char) : foundChars ahead <+: ahead :=
  (List.take_prefix _ _).trans (List.takeWhile_prefix _)

theorem length_foundChars_le (ahead : List Char) : (foundChars ahead).length ≤ foundLimit :=
  List.length_take_le _ _

theorem isSpace_of_mem_foundChars {x : Char} (hx : x ∈ foundChars ahead) :
    Unicode.isSpace x = false := by
  have hall := List.all_eq_true.mp List.all_takeWhile x (List.mem_of_mem_take hx)
  simpa using hall

/-- Nothing is quoted where white space comes first. -/
theorem foundChars_eq_nil {x : Char} (hx : x ∈ ahead.head?) :
    foundChars ahead = [] ↔ Unicode.isSpace x = true := by
  obtain ⟨others, rfl⟩ := List.head?_eq_some_iff.mp hx
  cases hspace : Unicode.isSpace x <;> simp [foundChars, foundLimit, hspace]

/-- A quotation begins with its mark. -/
theorem quoted_ne_endOfInput (cs : List Char) : quoted cs ≠ "end of input" := by
  intro h
  have hchars := congrArg String.toList h
  rw [quoted, String.toList_ofList] at hchars
  have hmark : Quoted.mark cs = 'e' := (List.cons.inj hchars).1
  unfold Quoted.mark at hmark
  split at hmark
  · exact absurd hmark (by decide)
  · exact absurd hmark (by decide)

end

/-! ## Places of reports -/

/-- What the message of a report says of the rule that had committed. -/
def Diagnostic.context (d : Diagnostic) : String :=
  match d.rule with
  | some rule => " (in " ++ rule ++ ")"
  | none => ""

/-- Where a report may be about that names a rule or none. -/
def MayReport (place : Cursor) : Option String → Prop
  | some blamed => MayFail place blamed
  | none => MayMiss place

variable {α β : Type} {s : Settings} {source : Source} {rule : Rule α} {rule' : Rule β}
  {expected label : String} {blamed : Option String} {d : Diagnostic} {place : Cursor}
  {cs : List Char}

/-- The report is about a place in the source where the grammar may stop. -/
def Source.Reports (source : Source) (d : Diagnostic) : Prop :=
  ∃ place label blamed cs, d = source.report place label blamed ∧
    (Cursor.ofText source.chars).ReadsTo cs place ∧ MayReport place blamed

theorem mayReport_of_error {outcome : Outcome α} (h : outcome.Halts MayMiss MayFail)
    (herror : outcome.answer source = .error d) :
    ∃ place label blamed, outcome.StopsAt place ∧ d = source.report place label blamed ∧
      MayReport place blamed := by
  cases outcome with
  | matched v rest => cases herror
  | missed place label =>
    cases herror
    exact ⟨place, label, none, .missed, rfl, h⟩
  | failed place label blamed =>
    cases herror
    exact ⟨place, label, some blamed, .failed, rfl, h⟩

theorem reports_of_error {F K : List Char → List Char → Prop}
    (h : ViableItem s.lineComments F K rule rule') (hrule : InPlace rule Cursor.Anywhere)
    (hproceeds : rule.Proceeds) (herror : parse s rule source expected = .error d) :
    source.Reports d := by
  have hwhole : InPlace (whole s rule expected) Cursor.Anywhere :=
    halts_terminated hrule hproceeds (token_inPlace (endOf_inPlace expected))
  obtain ⟨place, label, blamed, hstop, hreport, hplace⟩ :=
    mayReport_of_error (hwhole _ (Cursor.within_ofText source.chars) trivial) herror
  obtain ⟨cs, hcs⟩ := readsTo_of_stops h hstop
  exact ⟨place, label, blamed, cs, hreport, hcs, hplace⟩

theorem Entry.reported (entry : Entry) (h : entry.parse s source = .error d) :
    source.Reports d := by
  cases entry with
  | stylesheet =>
    have hitems := viableItem_map (f := Stylesheet.mk) (g := id) (items_viable (s := s) s.maxDepth)
    have hproceeds := (itemAt_advances (s := s) s.maxDepth).proceeds
    exact reports_of_error hitems (halts_map (halts_many (itemAt_inPlace _) hproceeds))
      (ensures_map (many_ensures hproceeds).proceeds)
      (parseStylesheet_eq.symm.trans (Except.error_of_map h))
  | item =>
    exact reports_of_error (itemAt_viable s.maxDepth) (itemAt_inPlace _)
      (itemAt_advances _).proceeds (parseItem_eq.symm.trans (Except.error_of_map h))
  | declaration =>
    exact reports_of_error (declarationAt_viable s.maxDepth) (declarationAt_inPlace _)
      (declarationAt_ensures (P := fun _ _ _ => True) (valueAt_advances _)).proceeds
      (parseDeclaration_eq.symm.trans (Except.error_of_map h))
  | value =>
    exact reports_of_error (viableItem_of_viable (valueAt_viable s.maxDepth)) (valueAt_inPlace _)
      (valueAt_advances _).proceeds (parseValue_eq.symm.trans (Except.error_of_map h))
  | selectorGroup =>
    exact reports_of_error (viableItem_of_viable selectorGroup_viable) selectorGroup_inPlace
      selectorGroup_advances.proceeds (Except.error_of_map h)

/-! ## Found texts -/

/-- What stands at the place, or that the source ends there. -/
theorem describe_of_readsTo (h : (Cursor.ofText source.chars).ReadsTo cs place) :
    source.chars = cs ++ place.ahead ∧
      describe place =
        if place.ahead = [] then "end of input" else quoted (foundChars place.ahead) := by
  have hchars : source.chars = cs ++ place.ahead := h.ahead
  refine ⟨hchars, ?_⟩
  have hreads : (Cursor.ofText source.chars).Reads cs (place.withDepth 0) := h
  have hwithin : place.Within := hreads.within (Cursor.within_ofText source.chars)
  unfold describe
  simp only [hwithin.atEnd_iff]

/-- A mark that has been read stands in the source. -/
theorem mark_of_behindMark (h : (Cursor.ofText source.chars).ReadsTo cs place)
    (hbehind : BehindMark place) :
    ∃ mark ∈ loneMarks, 0 < cs.length ∧ source.chars[cs.length - 1]? = some mark := by
  obtain ⟨before, mark, hmark, hbefore, hread⟩ := hbehind
  have hreads : (Cursor.ofText source.chars).Reads cs (place.withDepth 0) := h
  have htext : before.text = source.chars := hread.text.symm.trans hreads.text
  have hpos : before.pos + 1 = cs.length := hread.pos.symm.trans (h.pos.trans (Int.zero_add _))
  have hstart := hbefore.1
  have hdrop : source.chars.drop (cs.length - 1) = before.ahead := by
    rw [before.ahead_eq, htext, fromStart_of_nonneg hstart]
    congr 1
    omega
  refine ⟨mark, hmark, by omega, ?_⟩
  rw [← List.head?_drop, hdrop, hread.ahead]
  rfl

/-- The places of reports where a blank stands. -/
theorem blank_cases (h : MayReport place blamed) {x : Char} (hx : x ∈ place.ahead.head?)
    (hblank : isBlank x = true) :
    BehindMark place ∨ blamed = some "string interpolation" ∨
      x = '\n' ∧ (blamed = some "string" ∨ blamed = some "url") := by
  have hmiss : MayMiss place → BehindMark place := by
    rintro (htext | hbehind)
    · rw [htext x hx] at hblank
      cases hblank
    · exact hbehind
  cases blamed with
  | none => exact .inl (hmiss h)
  | some blamed =>
    cases h with
    | asMiss h => exact .inl (hmiss h)
    | interpolation => exact .inr (.inl rfl)
    | newline hblamed hhead =>
      rw [Option.mem_def, hhead] at hx
      refine .inr (.inr ⟨(Option.some.inj hx).symm, ?_⟩)
      simpa [lineRules] using hblamed

/-- **What a report has found.** The message of a report names what was expected and what stands at
its place: the end of the source, or a quotation of at most twelve characters without white space.
The quotation is empty where white space stands at the place itself. A blank stands there only
behind a lone mark, in an interpolation, or as a newline that ends a string or an address. -/
theorem Entry.parse_found (entry : Entry) (s : Settings) (source : Source) {d : Diagnostic}
    (h : entry.parse s source = .error d) :
    ∃ (k : Nat) (expected found : String), d.offset = k ∧ k ≤ source.chars.length ∧
      d.expected = some expected ∧
      d.message = "expected " ++ expected ++ ", found " ++ found ++ d.context ∧
      (found = "end of input" ↔ k = source.chars.length) ∧
      (k < source.chars.length → ∃ p, found = quoted p ∧ p <+: source.chars.drop k ∧
        p.length ≤ 12 ∧ (∀ x ∈ p, Unicode.isSpace x = false) ∧
        (p = [] ↔ ∃ x ∈ source.chars[k]?, Unicode.isSpace x = true)) ∧
      ∀ x ∈ source.chars[k]?, isBlank x = true →
        (∃ mark ∈ loneMarks, 0 < k ∧ source.chars[k - 1]? = some mark) ∨
          d.rule = some "string interpolation" ∨
          x = '\n' ∧ (d.rule = some "string" ∨ d.rule = some "url") := by
  obtain ⟨place, expected, blamed, cs, rfl, hcs, hplace⟩ := entry.reported h
  obtain ⟨hchars, hdescribe⟩ := describe_of_readsTo hcs
  have hpos : place.pos = cs.length := hcs.pos.trans (Int.zero_add _)
  have hdrop : source.chars.drop cs.length = place.ahead := by rw [hchars, List.drop_left]
  have hat : source.chars[cs.length]? = place.ahead.head? := by
    rw [← hdrop, List.head?_drop]
  have hlength : source.chars.length = cs.length + place.ahead.length := by
    rw [hchars, List.length_append]
  refine ⟨cs.length, expected, describe place, hpos, by omega, rfl, ?_, ?_, fun hlt => ?_, ?_⟩
  · cases blamed <;> rfl
  · rw [hdescribe, hlength]
    split
    · rename_i hnil
      simp [hnil]
    · rename_i hne
      have hpositive := List.length_pos_iff.mpr hne
      exact ⟨fun heq => absurd heq (quoted_ne_endOfInput _), fun heq => by omega⟩
  · have hne : place.ahead ≠ [] := by
      rintro hnil
      rw [hnil, List.length_nil] at hlength
      omega
    obtain ⟨x, others, hahead⟩ := List.exists_cons_of_ne_nil hne
    have hx : x ∈ place.ahead.head? := by rw [hahead]; rfl
    rw [hdescribe, if_neg hne, hdrop, hat]
    refine ⟨foundChars place.ahead, rfl, foundChars_prefix _, length_foundChars_le _,
      fun y => isSpace_of_mem_foundChars, (foundChars_eq_nil hx).trans ?_⟩
    rw [hahead]
    simp
  · rw [hat]
    intro x hx hblank
    exact (blank_cases hplace hx hblank).imp_left (mark_of_behindMark hcs)

/-- A parenthesis where a value should stand. -/
theorem parenthesis_found :
    ∃ d, Entry.declaration.parse ⟨1, true⟩ ⟨['b', ':', ')'], none⟩ = .error d ∧
      d.message = "expected value, found ')' (in declaration)" ∧
      ∃ expected p, d.expected = some expected ∧
        d.message = "expected " ++ expected ++ ", found " ++ quoted p ++ d.context ∧
        p <+: [')'] ∧ p ≠ [] := by
  obtain ⟨d, herror, hoffset, hmessage⟩ : ∃ d,
      Entry.declaration.parse ⟨1, true⟩ ⟨['b', ':', ')'], none⟩ = .error d ∧ d.offset = 2 ∧
        d.message = "expected value, found ')' (in declaration)" := ⟨_, rfl, rfl, rfl⟩
  obtain ⟨k, expected, found, hk, -, hexpected, hfound, -, hquoted, -⟩ :=
    Entry.parse_found .declaration _ _ herror
  obtain rfl : k = 2 := by omega
  obtain ⟨p, rfl, hprefix, -, -, hnil⟩ := hquoted (by decide)
  refine ⟨d, herror, hmessage, expected, p, hexpected, hfound, hprefix, fun hempty => ?_⟩
  obtain ⟨x, hx, hspace⟩ := hnil.mp hempty
  cases hx
  exact absurd hspace (by decide)

/-- A newline that ends a string stands at the place of the report, and is not quoted. -/
theorem newline_not_quoted :
    ¬ ∀ (entry : Entry) (s : Settings) (source : Source) (d : Diagnostic) (k : Nat),
      entry.parse s source = .error d → d.offset = k → k < source.chars.length →
      ∃ expected p, d.expected = some expected ∧ p ≠ [] ∧ p <+: source.chars.drop k ∧
        p.length ≤ 12 ∧
        d.message = "expected " ++ expected ++ ", found " ++ quoted p ++ d.context := by
  intro h
  obtain ⟨d, herror, hoffset, hexpected, hrule, hmessage⟩ : ∃ d,
      Entry.value.parse ⟨1, true⟩ ⟨['"', '\n'], none⟩ = .error d ∧ d.offset = (1 : Nat) ∧
        d.expected = some "closing \"" ∧ d.rule = some "string" ∧
        d.message = "expected closing \", found '' (in string)" :=
    ⟨_, rfl, rfl, rfl, rfl, rfl⟩
  obtain ⟨expected, p, hp, hne, hprefix, -, hquoted⟩ := h .value _ _ d 1 herror hoffset (by decide)
  obtain ⟨x, others, rfl⟩ := List.exists_cons_of_ne_nil hne
  obtain ⟨rfl, hothers⟩ := List.cons_prefix_cons.mp hprefix
  obtain rfl := List.prefix_nil.mp hothers
  obtain rfl : "closing \"" = expected := Option.some.inj (hexpected.symm.trans hp)
  rw [hmessage, Diagnostic.context, hrule] at hquoted
  exact absurd hquoted (by decide)

end LessSyntax
