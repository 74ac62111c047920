import LessSyntax.Grammar.StringLiteral
import LessSyntax.Grammar.Url
import LessSyntax.Proofs.Lexeme.Name
import LessSyntax.Tree.Print
import LessSyntax.Tree.Same

/-!
# String literals in their surroundings

A segment ends at the first character that ends it, and nothing behind that character counts.
So a string is known by its segments and interpolations alone, and it is read again wherever
it is written.

* `segmentEnd_tail`: what follows a segment may be replaced by anything that ends it.
* `ReadsString`, `quotedString_ensures`: what is read as a string.
* `accepts_quotedString`: a string that is written is read again.
-/

namespace LessSyntax.Grammar

open Rule

/-- The two marks that stylesheets know, with their characters. -/
inductive Mark : Quote → Char → Prop
  | single : Mark .single '\''
  | double : Mark .double '"'

variable {quote : Quote} {q : Char} {t k l : List Char}

theorem Mark.chars (hq : Mark quote q) : quote.chars = [q] := by
  cases hq <;> rfl

/-! ## Segments -/

theorem endsSegment_cons (quote : Quote) (c d : Char) (cs : List Char) :
    endsSegment quote c (d :: cs)
      = ([c] == quote.chars || ((c == '@' || c == '$') && d == '{')) := by
  have hcomm : ∀ a b : Char, (a == b) = (b == a) := fun _ _ => BEq.comm
  simp only [endsSegment, opensInterpolation, List.isPrefixOf, Bool.and_true]
  rw [hcomm '@', hcomm '$', hcomm '{', Bool.and_or_distrib_right]

theorem endsSegment_mark (hq : Mark quote q) (k : List Char) : endsSegment quote q k = true := by
  simp [endsSegment, hq.chars]

theorem endsSegment_ne_brace (hq : Mark quote q) {x : Char} (h : endsSegment quote x k = true) :
    x ≠ '{' := by
  rintro rfl
  cases hq <;> cases k <;> simp [endsSegment, opensInterpolation, Quote.single, Quote.double] at h

theorem segmentEnd_here {x : Char} (h : endsSegment quote x k = true) (pos : Nat) :
    segmentEnd quote pos (x :: k) = .ok pos := by
  unfold segmentEnd
  rw [if_pos h]

/-- A backslash takes the character behind it with it, whatever that is. -/
theorem segmentEnd_escape (hq : Mark quote q) (pos : Nat) (d : Char) (cs : List Char) :
    segmentEnd quote pos ('\\' :: d :: cs) = segmentEnd quote (pos + 2) cs := by
  have hends : endsSegment quote '\\' (d :: cs) = false := by
    rw [endsSegment_cons]
    cases hq <;> rfl
  rw [segmentEnd.eq_def]
  dsimp only
  rw [hends]
  rfl

theorem segmentEnd_plain {c : Char} {cs : List Char} (hends : endsSegment quote c cs = false)
    (hescape : c ≠ '\\') (hline : c ≠ '\n') (pos : Nat) :
    segmentEnd quote pos (c :: cs) = segmentEnd quote (pos + 1) cs := by
  rw [segmentEnd.eq_def]
  dsimp only
  rw [hends, beq_false_of_ne hescape, beq_false_of_ne hline]
  rfl

/-- A scan goes on behind a backslash with its character or behind a plain character. -/
theorem segmentEnd_cons_ok {c : Char} {cs : List Char} {pos stop : Nat}
    (h : segmentEnd quote pos (c :: cs) = .ok stop) (hpos : pos < stop) :
    (∃ d ds, c = '\\' ∧ cs = d :: ds ∧ segmentEnd quote (pos + 2) ds = .ok stop) ∨
      endsSegment quote c cs = false ∧ c ≠ '\\' ∧ c ≠ '\n' ∧
        segmentEnd quote (pos + 1) cs = .ok stop := by
  unfold segmentEnd at h
  split at h
  · cases h
    exact absurd hpos (Nat.lt_irrefl _)
  · rename_i hends
    split at h
    · rename_i hescape
      cases cs with
      | nil => cases h
      | cons d ds => exact Or.inl ⟨d, ds, beq_iff_eq.mp hescape, rfl, h⟩
    · rename_i hescape
      split at h
      · cases h
      · rename_i hline
        refine Or.inr ⟨Bool.eq_false_iff.mpr hends, ?_, ?_, h⟩
        · simpa using hescape
        · simpa using hline

/-- What follows a segment may be replaced by anything else that ends it. -/
theorem segmentEnd_tail (hq : Mark quote q) {x y : Char} (hx : endsSegment quote x k = true)
    (hy : endsSegment quote y l = true) : ∀ (t : List Char) (pos : Nat),
    segmentEnd quote pos (t ++ x :: k) = .ok (pos + t.length) →
    segmentEnd quote pos (t ++ y :: l) = .ok (pos + t.length)
  | [], pos, _ => by
    rw [List.nil_append, segmentEnd_here hy]
    rfl
  | [c], pos, h => by
    obtain ⟨d, ds, -, hsplit, hend⟩ | ⟨hends, hescape, hline, -⟩ := segmentEnd_cons_ok h (by simp)
    · -- behind a backslash the segment could not end right here
      have := (segmentEnd_bounds hend).1
      simp at this
    · have hxne := beq_eq_false_iff_ne.mpr (endsSegment_ne_brace hq hx)
      have hyne := beq_eq_false_iff_ne.mpr (endsSegment_ne_brace hq hy)
      have hends' : endsSegment quote c (y :: l) = false := by
        rw [← hends, List.append_eq, List.nil_append, endsSegment_cons, endsSegment_cons, hxne,
          hyne]
      exact (segmentEnd_plain hends' hescape hline pos).trans (segmentEnd_here hy _)
  | c :: d :: t, pos, h => by
    obtain ⟨d', ds, rfl, hsplit, hend⟩ | ⟨hends, hescape, hline, hend⟩ :=
      segmentEnd_cons_ok h (by simp)
    · cases hsplit
      have hlength : pos + ('\\' :: d :: t).length = pos + 2 + t.length := by
        simp only [List.length_cons]
        omega
      rw [hlength] at hend ⊢
      exact (segmentEnd_escape hq pos d _).trans (segmentEnd_tail hq hx hy t (pos + 2) hend)
    · have hlength : pos + (c :: d :: t).length = pos + 1 + (d :: t).length := by
        simp only [List.length_cons]
        omega
      rw [hlength] at hend ⊢
      have hends' : endsSegment quote c (d :: t ++ y :: l) = false := by
        rw [← hends, List.append_eq, List.cons_append, List.cons_append, endsSegment_cons,
          endsSegment_cons]
      exact (segmentEnd_plain hends' hescape hline pos).trans
        (segmentEnd_tail hq hx hy (d :: t) (pos + 1) hend)

/-- The text is a segment of a string with the given mark. -/
def IsSegment (quote : Quote) (t : List Char) : Prop :=
  segmentEnd quote 0 (t ++ quote.chars) = .ok t.length

theorem IsSegment.append (hq : Mark quote q) (h : IsSegment quote t) {y : Char}
    (hy : endsSegment quote y l = true) : segmentEnd quote 0 (t ++ y :: l) = .ok t.length := by
  rw [IsSegment, hq.chars] at h
  have htail := segmentEnd_tail hq (endsSegment_mark hq []) hy t 0
  rw [Nat.zero_add] at htail
  exact htail h

theorem isSegment_of_append (hq : Mark quote q) {y : Char} (hy : endsSegment quote y l = true)
    (h : segmentEnd quote 0 (t ++ y :: l) = .ok t.length) : IsSegment quote t := by
  rw [IsSegment, hq.chars]
  have htail := segmentEnd_tail hq hy (endsSegment_mark hq []) t 0
  rw [Nat.zero_add] at htail
  exact htail h

/-- Something that ends a segment stands ahead. -/
def AtSegmentEnd (quote : Quote) (k : List Char) : Prop :=
  ∃ y l, k = y :: l ∧ endsSegment quote y l = true

theorem segment_matched (hq : Mark quote q) {c rest : Cursor} {text : Text} (hc : c.Within)
    (h : segment quote c = .matched text rest) :
    ∃ t, c.Reads t rest ∧ IsSegment quote t ∧ text = c.next t.length ∧
      AtSegmentEnd quote rest.ahead := by
  rw [segment_eq hc.1] at h
  cases hend : segmentEnd quote 0 c.ahead with
  | error stop => rw [hend] at h; cases h
  | ok count =>
    rw [hend] at h
    cases h
    obtain ⟨y, l, hdrop, hy⟩ := segmentEnd_stop hend
    have hbound := (segmentEnd_bounds hend).2
    obtain ⟨t, rfl, hreads⟩ := hc.reads_take (by omega : count ≤ c.ahead.length)
    have hbehind : (c.advance t.length).ahead = y :: l := by
      rw [Cursor.ahead_advance hc.1, ← hdrop, Nat.sub_zero]
    rw [hreads.ahead, hbehind] at hend
    exact ⟨t, hreads, isSegment_of_append hq hy hend, rfl, y, l, hbehind, hy⟩

theorem accepts_segment (hq : Mark quote q) (h : IsSegment quote t) (hk : AtSegmentEnd quote k) :
    (segment quote).Accepts t k fun text => text.chars = t := by
  intro c hc hahead
  obtain ⟨y, l, rfl, hy⟩ := hk
  refine ⟨c.next t.length, ?_, ?_⟩
  · rw [segment_eq hc.1, hahead, h.append hq hy]
  · show (c.next t.length).chars = t
    rw [Cursor.chars_next hc.1, hahead, List.take_left]

/-! ## Marks and interpolations -/

theorem quoteMark_matched (hq : Mark quote q) {c rest : Cursor} {v : Unit} (hc : c.Within)
    (h : quoteMark quote c = .matched v rest) : c.Reads [q] rest := by
  unfold quoteMark at h
  rw [hq.chars] at h
  split at h
  · rename_i hstarts
    cases h
    exact .of_startsWith hc hstarts
  · cases h

theorem accepts_quoteMark (hq : Mark quote q) : (quoteMark quote).Accepts [q] k fun _ => True := by
  intro c hc hahead
  refine ⟨(), ?_, trivial⟩
  unfold quoteMark
  rw [hq.chars, if_pos ((Cursor.startsWith_iff (by simp)).mpr ⟨k, hahead⟩)]
  rfl

theorem quoteMark_refuses (hq : Mark quote q) (h : ∀ c ∈ k.head?, c ≠ q) :
    (quoteMark quote).Refuses k := by
  intro c _ hahead
  have hstarts : c.startsWith [q] = false := startsWith_one_false (hahead ▸ h)
  refine ⟨c, "string", ?_⟩
  unfold quoteMark
  rw [hq.chars, hstarts]
  rfl

/-- An interpolation is read as what opens it, its name and what closes it. -/
inductive ReadsInterpolation (c : Cursor) : Interpolation → Cursor → Prop
  | ofVariable {opened named rest : Cursor} {cs : List Char} (hopen : c.Reads ['@', '{'] opened)
    (hname : opened.Reads cs named) (hclose : named.Reads ['}'] rest) (his : IsName cs) :
    ReadsInterpolation c (.variable (opened.next cs.length)) rest
  | ofProperty {opened named rest : Cursor} {cs : List Char} (hopen : c.Reads ['$', '{'] opened)
    (hname : opened.Reads cs named) (hclose : named.Reads ['}'] rest) (his : IsName cs) :
    ReadsInterpolation c (.property (opened.next cs.length)) rest

theorem delimitedName_matched {opening : List Char} (hne : opening ≠ []) {c rest : Cursor}
    {text : Text} (hc : c.Within)
    (h : delimited (literal opening) name (literal ['}']) c = .matched text rest) :
    ∃ opened named cs, c.Reads opening opened ∧ opened.Reads cs named ∧ named.Reads ['}'] rest ∧
      IsName cs ∧ text = opened.next cs.length := by
  obtain ⟨v, hboth, rfl⟩ := map_matched.mp h
  obtain ⟨opened, hopen, hrest⟩ := both_matched.mp hboth
  obtain ⟨w, hinner, hw⟩ := map_matched.mp hrest
  obtain ⟨named, hname, hclose⟩ := both_matched.mp hinner
  obtain ⟨hstarts, -, rfl⟩ := literal_matched hopen
  obtain ⟨k, hk⟩ := (Cursor.startsWith_iff hne).mp hstarts
  have hopened := (hc.reads hk).within hc
  obtain ⟨cs, hreads, his, htext⟩ := name_matched hopened hname
  obtain ⟨hstarts', -, rfl⟩ := literal_matched hclose
  exact ⟨_, named, cs, hc.reads hk, hreads, .of_startsWith (hreads.within hopened) hstarts', his,
    hw.symm.trans htext⟩

theorem interpolation_ensures : interpolation.Ensures ReadsInterpolation := by
  refine ensures_choice fun r hr => ?_
  simp only [List.mem_cons, List.not_mem_nil, or_false] at hr
  rcases hr with rfl | rfl
  · refine ensures_map fun c text rest hc h => ?_
    obtain ⟨opened, named, cs, hopen, hname, hclose, his, rfl⟩ :=
      delimitedName_matched (by simp) hc h
    exact ⟨⟨_, (hopen.trans hname).trans hclose⟩, .ofVariable hopen hname hclose his⟩
  · refine ensures_map fun c text rest hc h => ?_
    obtain ⟨opened, named, cs, hopen, hname, hclose, his, rfl⟩ :=
      delimitedName_matched (by simp) hc h
    exact ⟨⟨_, (hopen.trans hname).trans hclose⟩, .ofProperty hopen hname hclose his⟩

theorem accepts_delimitedName {opening cs : List Char} (hne : opening ≠ []) (h : IsName cs) :
    (delimited (literal opening) name (literal ['}'])).Accepts (opening ++ (cs ++ ['}'])) k
      fun text => text.chars = cs := by
  have hclose : (literal ['}']).Accepts ['}'] k fun t => t.chars = ['}'] :=
    accepts_literal (by simp)
  have hname : name.Accepts cs (['}'] ++ k) fun text => text.chars = cs :=
    accepts_name h (head_cons rfl)
  exact accepts_preceded (accepts_literal hne) (accepts_terminated hname hclose)

theorem accepts_interpolation {i : Interpolation} (h : IsName i.name.chars) :
    interpolation.Accepts i.print k fun j => i.same j = true := by
  rcases i with text | text
  · refine accepts_choice_head (accepts_map ?_)
    exact accepts_mono (accepts_delimitedName (by simp) h) fun u hu => Text.same_iff.mpr hu.symm
  · refine accepts_choice_tail ?_ (accepts_choice_head (accepts_map ?_))
    · intro c hc hahead
      refine map_misses (map_misses (both_misses (literal_refuses (by simp) ?_ c hc hahead)))
      simp [Interpolation.print]
    · exact accepts_mono (accepts_delimitedName (by simp) h) fun u hu =>
        Text.same_iff.mpr hu.symm

/-! ## Strings -/

/-- Interpolations and the segments behind them, one pair after the other. -/
inductive ReadsParts (quote : Quote) : Cursor → List (Interpolation × Text) → Cursor → Prop
  | nil {c : Cursor} : ReadsParts quote c [] c
  | cons {c mid stop rest : Cursor} {i : Interpolation} {t : List Char}
    {parts : List (Interpolation × Text)} (hpart : ReadsInterpolation c i mid)
    (hsegment : mid.Reads t stop) (his : IsSegment quote t)
    (hparts : ReadsParts quote stop parts rest) :
    ReadsParts quote c ((i, mid.next t.length) :: parts) rest

/-- A string is read as its marks and what stands between them. -/
inductive ReadsString (c : Cursor) : Value → Cursor → Prop
  | plain {quote : Quote} {q : Char} {opened closed rest : Cursor} {t : List Char}
    (hq : Mark quote q) (hopen : c.Reads [q] opened) (hsegment : opened.Reads t closed)
    (hclose : closed.Reads [q] rest) (his : IsSegment quote t) :
    ReadsString c (.string (opened.next t.length) quote) rest
  | interpolated {quote : Quote} {q : Char} {opened mid closed rest : Cursor} {t : List Char}
    {parts : List (Interpolation × Text)} (hq : Mark quote q) (hopen : c.Reads [q] opened)
    (hsegment : opened.Reads t mid) (hparts : ReadsParts quote mid parts closed)
    (hclose : closed.Reads [q] rest) (his : IsSegment quote t) (hne : parts ≠ []) :
    ReadsString c (.interpolated (opened.next t.length) parts quote) rest

theorem segment_ensures (hq : Mark quote q) : (segment quote).Ensures fun c text rest =>
    ∃ t, c.Reads t rest ∧ IsSegment quote t ∧ text = c.next t.length := by
  intro c text rest hc h
  obtain ⟨t, hreads, his, htext, -⟩ := segment_matched hq hc h
  exact ⟨⟨t, hreads⟩, t, hreads, his, htext⟩

theorem quoteMark_ensures (hq : Mark quote q) :
    (quoteMark quote).Ensures fun c _ rest => c.Reads [q] rest := by
  intro c v rest hc h
  have hreads := quoteMark_matched hq hc h
  exact ⟨⟨[q], hreads⟩, hreads⟩

theorem stringPart_ensures (hq : Mark quote q) : (stringPart quote).Ensures fun c part rest =>
    ∃ mid t, ReadsInterpolation c part.1 mid ∧ mid.Reads t rest ∧ IsSegment quote t ∧
      part.2 = mid.next t.length := by
  have hboth : (both (cut interpolation "string interpolation") (segment quote)).Ensures
      fun c part rest => ∃ mid t, ReadsInterpolation c part.1 mid ∧ mid.Reads t rest ∧
        IsSegment quote t ∧ part.2 = mid.next t.length := by
    apply ensures_both (ensures_cut interpolation_ensures) (segment_ensures hq)
    rintro c i mid text rest - - hpart ⟨t, hreads, his, htext⟩
    exact ⟨mid, t, hpart, hreads, his, htext⟩
  intro c part rest hc h
  unfold stringPart at h
  split at h
  · cases h
  · exact hboth c part rest hc h

theorem stringParts_ensures (hq : Mark quote q) : (stringParts quote).Ensures fun c parts rest =>
    ∃ closed, ReadsParts quote c parts.toList closed ∧ closed.Reads [q] rest := by
  have hcons : ∀ (c : Cursor) (part : Interpolation × Text) (stop : Cursor)
      (parts : List (Interpolation × Text)) (rest : Cursor), c.Reaches stop → stop.Reaches rest →
      (∃ mid t, ReadsInterpolation c part.1 mid ∧ mid.Reads t stop ∧ IsSegment quote t ∧
        part.2 = mid.next t.length) →
      ReadsParts quote stop parts rest → ReadsParts quote c (part :: parts) rest := by
    rintro c ⟨i, text⟩ stop parts rest - - ⟨mid, t, hpart, hreads, his, rfl⟩ hparts
    exact .cons hpart hreads his hparts
  have hmany : (many1 (stringPart quote)).Ensures fun c parts rest =>
      ReadsParts quote c parts.toList rest :=
    ensures_many1 (stringPart_ensures hq) (fun _ => .nil) hcons hcons
  apply ensures_terminated hmany (quoteMark_ensures hq)
  intro c parts closed _ rest _ _ hparts hclose
  exact ⟨closed, hparts, hclose⟩

theorem stringLiteral_ensures (hq : Mark quote q) :
    (stringLiteral quote).Ensures ReadsString := by
  intro c v rest hc h
  obtain ⟨text, mid, hfirst, hrest⟩ := Outcome.bind_matched.mp h
  obtain ⟨w, hboth, rfl⟩ := map_matched.mp hfirst
  obtain ⟨opened, hmark, hsegment⟩ := both_matched.mp hboth
  have hopen := quoteMark_matched hq hc hmark
  obtain ⟨t, hreads, his, htext, -⟩ := segment_matched hq (hopen.within hc) hsegment
  have hmid := hreads.within (hopen.within hc)
  rw [htext] at hrest
  split at hrest
  · rename_i hstarts
    rw [hq.chars] at hstarts
    cases hrest
    have hclose := Cursor.Reads.of_startsWith hmid hstarts
    exact ⟨⟨_, (hopen.trans hreads).trans hclose⟩, .plain hq hopen hreads hclose his⟩
  · obtain ⟨parts, hparts, rfl⟩ := Outcome.map_matched.mp hrest
    obtain ⟨hreach, closed, hread, hclose⟩ := stringParts_ensures hq mid parts rest hmid hparts
    exact ⟨Cursor.Reaches.trans ⟨_, hopen.trans hreads⟩ hreach,
      .interpolated hq hopen hreads hread hclose his parts.toList_ne_nil⟩

theorem quotedString_ensures : quotedString.Ensures ReadsString := by
  refine ensures_choice fun r hr => ?_
  simp only [List.mem_cons, List.not_mem_nil, or_false] at hr
  rcases hr with rfl | rfl
  · exact stringLiteral_ensures .double
  · exact stringLiteral_ensures .single

/-! ## Strings that are written -/

/-- The value is a string whose segments and names are what they have to be. -/
inductive StringText : Value → Prop
  | plain {text : Text} {quote : Quote} {q : Char} (hq : Mark quote q)
    (his : IsSegment quote text.chars) : StringText (.string text quote)
  | interpolated {first : Text} {parts : List (Interpolation × Text)} {quote : Quote} {q : Char}
    (hq : Mark quote q) (his : IsSegment quote first.chars) (hne : parts ≠ [])
    (hparts : ∀ part ∈ parts, IsName part.1.name.chars ∧ IsSegment quote part.2.chars) :
    StringText (.interpolated first parts quote)

theorem ReadsInterpolation.isName {c rest : Cursor} {i : Interpolation} (hc : c.Within)
    (h : ReadsInterpolation c i rest) : IsName i.name.chars := by
  cases h with
  | ofVariable hopen hname _ his | ofProperty hopen hname _ his =>
    rw [Interpolation.name, hname.chars_next (hopen.within hc)]
    exact his

theorem ReadsInterpolation.reaches {c rest : Cursor} {i : Interpolation}
    (h : ReadsInterpolation c i rest) : c.Reaches rest := by
  cases h with
  | ofVariable hopen hname hclose _ | ofProperty hopen hname hclose _ =>
    exact ⟨_, (hopen.trans hname).trans hclose⟩

theorem ReadsParts.texts {c rest : Cursor} {parts : List (Interpolation × Text)} (hc : c.Within)
    (h : ReadsParts quote c parts rest) :
    ∀ part ∈ parts, IsName part.1.name.chars ∧ IsSegment quote part.2.chars := by
  induction h with
  | nil => simp
  | cons hpart hsegment his _ ih =>
    have hmid := hpart.reaches.within hc
    intro part hmem
    rcases List.mem_cons.mp hmem with rfl | hmem
    · exact ⟨hpart.isName hc, by rw [hsegment.chars_next hmid]; exact his⟩
    · exact ih (hsegment.within hmid) part hmem

theorem ReadsParts.reaches {c rest : Cursor} {parts : List (Interpolation × Text)}
    (h : ReadsParts quote c parts rest) : c.Reaches rest := by
  induction h with
  | nil => exact .refl _
  | cons hpart hsegment _ _ ih => exact (hpart.reaches.trans ⟨_, hsegment⟩).trans ih

theorem ReadsString.reaches {c rest : Cursor} {v : Value} (h : ReadsString c v rest) :
    c.Reaches rest := by
  cases h with
  | plain _ hopen hsegment hclose _ => exact ⟨_, (hopen.trans hsegment).trans hclose⟩
  | interpolated _ hopen hsegment hparts hclose _ _ =>
    exact (Cursor.Reaches.trans ⟨_, hopen.trans hsegment⟩ hparts.reaches).trans ⟨_, hclose⟩

theorem ReadsString.text {c rest : Cursor} {v : Value} (hc : c.Within)
    (h : ReadsString c v rest) : StringText v := by
  cases h with
  | plain hq hopen hsegment _ his =>
    refine .plain hq ?_
    rw [hsegment.chars_next (hopen.within hc)]
    exact his
  | interpolated hq hopen hsegment hparts _ his hne =>
    have hopened := hopen.within hc
    refine .interpolated hq ?_ hne (hparts.texts (hsegment.within hopened))
    rw [hsegment.chars_next hopened]
    exact his

/-- What is written for an interpolation ends the segment before it. -/
theorem endsSegment_print (i : Interpolation) (k : List Char) :
    AtSegmentEnd quote (i.print ++ k) := by
  rcases i with text | text
  · exact ⟨'@', _, rfl, by simp [endsSegment, opensInterpolation]⟩
  · exact ⟨'$', _, rfl, by simp [endsSegment, opensInterpolation]⟩

/-- What is written for an interpolation and the segment behind it. -/
def printPart (part : Interpolation × Text) : List Char := part.1.print ++ part.2.chars

theorem printPart_ne_nil (part : Interpolation × Text) : printPart part ≠ [] := by
  obtain ⟨i, text⟩ := part
  cases i <;> simp [printPart, Interpolation.print]

theorem atSegmentEnd_parts (hq : Mark quote q) (parts : List (Interpolation × Text)) :
    AtSegmentEnd quote (parts.flatMap printPart ++ q :: k) := by
  cases parts with
  | nil => exact ⟨q, k, rfl, endsSegment_mark hq k⟩
  | cons part parts =>
    rw [List.flatMap_cons, printPart, List.append_assoc, List.append_assoc]
    exact endsSegment_print part.1 _

theorem print_ne_mark (hq : Mark quote q) (i : Interpolation) (k : List Char) :
    ∀ c ∈ (i.print ++ k).head?, c ≠ q := by
  intro c hc
  cases hq <;> cases i <;> cases hc <;> decide

theorem accepts_stringPart (hq : Mark quote q) {part : Interpolation × Text}
    (h : IsName part.1.name.chars ∧ IsSegment quote part.2.chars) (hk : AtSegmentEnd quote k) :
    (stringPart quote).Accepts (printPart part) k
      fun other => part.1.same other.1 = true ∧ part.2.same other.2 = true := by
  intro c hc hahead
  have hstarts : c.startsWith quote.chars = false := by
    rw [hq.chars]
    apply startsWith_one_false
    rw [hahead, printPart, List.append_assoc]
    exact print_ne_mark hq part.1 _
  obtain ⟨other, hother, hsame⟩ :=
    accepts_both (accepts_cut (accepts_interpolation h.1)) (accepts_segment hq h.2 hk) c hc hahead
  refine ⟨other, ?_, hsame.1, Text.same_iff.mpr hsame.2.symm⟩
  rw [stringPart, hstarts, if_neg Bool.false_ne_true]
  exact hother

theorem stringPart_refuses (hq : Mark quote q) : (stringPart quote).Refuses (q :: k) := by
  intro c _ hahead
  refine ⟨c, "interpolation", ?_⟩
  rw [stringPart, hq.chars, if_pos ((Cursor.startsWith_iff (by simp)).mpr ⟨k, hahead⟩)]

theorem accepts_stringParts (hq : Mark quote q) {part : Interpolation × Text}
    {parts : List (Interpolation × Text)}
    (hparts : ∀ p ∈ part :: parts, IsName p.1.name.chars ∧ IsSegment quote p.2.chars) :
    (stringParts quote).Accepts ((part :: parts).flatMap printPart ++ [q]) k
      fun others => sameParts (part :: parts) others.toList = true := by
  have hcons : ∀ (p o : Interpolation × Text) (ps os : List (Interpolation × Text)),
      p.1.same o.1 = true ∧ p.2.same o.2 = true → sameParts ps os = true →
      sameParts (p :: ps) (o :: os) = true := by
    intro p o ps os h hs
    simp [sameParts, h.1, h.2, hs]
  have hmore : (many (stringPart quote)).Accepts (parts.flatMap printPart) (q :: k)
      fun others => sameParts parts others = true :=
    accepts_many (S := fun ps os => sameParts ps os = true) rfl hcons
      (spells_flatMap fun p hp ys _ => ⟨printPart_ne_nil p, accepts_stringPart hq
        (hparts p (List.mem_cons_of_mem _ hp)) (atSegmentEnd_parts hq ys)⟩)
      (stringPart_refuses hq)
  have hfirst := accepts_stringPart hq (hparts part List.mem_cons_self)
    (atSegmentEnd_parts (k := k) hq parts)
  refine accepts_terminated ?_ (accepts_quoteMark hq)
  exact accepts_bind hfirst fun o ho => accepts_map (accepts_mono hmore fun os hos =>
    hcons part o parts os ho hos)

theorem accepts_plainString (hq : Mark quote q) {text : Text} (his : IsSegment quote text.chars) :
    (stringLiteral quote).Accepts (q :: text.chars ++ [q]) k
      fun w => (Value.string text quote).same w = true := by
  have hsegment : (segment quote).Accepts text.chars ([q] ++ k) fun t => t.chars = text.chars :=
    accepts_segment hq his ⟨q, k, rfl, endsSegment_mark hq k⟩
  refine accepts_bind (accepts_preceded (accepts_quoteMark hq) hsegment) fun t ht => ?_
  intro c _ hahead
  refine ⟨.string t quote, ?_, ?_⟩
  · dsimp only
    rw [hq.chars, if_pos ((Cursor.startsWith_iff (by simp)).mpr ⟨k, hahead⟩)]
    rfl
  · show (Value.string text quote).same (.string t quote) = true
    rw [Value.same]
    exact Text.same_iff.mpr ht.symm

theorem accepts_interpolatedString (hq : Mark quote q) {first : Text} {part : Interpolation × Text}
    {parts : List (Interpolation × Text)} (his : IsSegment quote first.chars)
    (hparts : ∀ p ∈ part :: parts, IsName p.1.name.chars ∧ IsSegment quote p.2.chars) :
    (stringLiteral quote).Accepts (q :: first.chars ++ ((part :: parts).flatMap printPart ++ [q])) k
      fun w => (Value.interpolated first (part :: parts) quote).same w = true := by
  have hsegment : (segment quote).Accepts first.chars
      ((part :: parts).flatMap printPart ++ [q] ++ k) fun t => t.chars = first.chars := by
    rw [List.append_assoc]
    exact accepts_segment hq his (atSegmentEnd_parts hq _)
  refine accepts_bind (accepts_preceded (accepts_quoteMark hq) hsegment) fun t ht => ?_
  intro c hc hahead
  obtain ⟨others, hothers, hsame⟩ := accepts_stringParts hq hparts c hc hahead
  have hstarts : c.startsWith quote.chars = false := by
    rw [hq.chars]
    apply startsWith_one_false
    rw [hahead, List.flatMap_cons, printPart, List.append_assoc, List.append_assoc,
      List.append_assoc]
    exact print_ne_mark hq part.1 _
  refine ⟨.interpolated t others.toList quote, ?_, ?_⟩
  · dsimp only
    rw [hstarts, if_neg Bool.false_ne_true, hothers]
    rfl
  · simp only [Value.same, Text.same_iff.mpr ht.symm, hsame, Bool.and_self]

theorem stringLiteral_refuses (hq : Mark quote q) (h : ∀ c ∈ k.head?, c ≠ q) :
    (stringLiteral quote).Refuses k := by
  intro c hc hahead
  exact bind_misses (map_misses (both_misses (quoteMark_refuses hq h c hc hahead)))

theorem quotedString_refuses (h : ∀ c ∈ k.head?, isQuotationMark c = false) :
    quotedString.Refuses k := by
  refine choice_refuses fun r hr => ?_
  simp only [List.mem_cons, List.not_mem_nil, or_false] at hr
  rcases hr with rfl | rfl
  · exact stringLiteral_refuses .double fun x hx => (ne_of_class rfl (h x hx)).symm
  · exact stringLiteral_refuses .single fun x hx => (ne_of_class rfl (h x hx)).symm

/-- What the rule for its mark accepts is accepted as a string. -/
theorem accepts_quotedString_of {cs : List Char} {P : Value → Prop} (hq : Mark quote q)
    (h : (stringLiteral quote).Accepts (q :: cs) k P) : quotedString.Accepts (q :: cs) k P := by
  cases hq with
  | double => exact accepts_choice_head h
  | single =>
    exact accepts_choice_tail (stringLiteral_refuses .double (head_cons (by decide)))
      (accepts_choice_head h)

/-- A string that is written is read again, whatever follows it. -/
theorem accepts_quotedString {v : Value} (hv : StringText v) :
    quotedString.Accepts v.print k fun w => v.same w = true := by
  cases hv with
  | plain hq his =>
    rw [Value.print, hq.chars]
    exact accepts_quotedString_of hq (accepts_plainString hq his)
  | @interpolated first parts quote q hq his hne hparts =>
    obtain ⟨part, others, rfl⟩ := List.exists_cons_of_ne_nil hne
    have hprint : (Value.interpolated first (part :: others) quote).print
        = q :: first.chars ++ ((part :: others).flatMap printPart ++ [q]) := by
      simp only [Value.print, renderSegments, hq.chars, List.append_assoc]
      rfl
    rw [hprint]
    exact accepts_quotedString_of hq (accepts_interpolatedString hq his hparts)

end LessSyntax.Grammar
