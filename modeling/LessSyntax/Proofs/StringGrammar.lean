import LessSyntax.Proofs.Blame
import LessSyntax.Proofs.LexemeAgreement
import LessSyntax.Proofs.Limited

/-!
# The language of strings

Between its marks a string has plain characters, backslashes with the character behind them, and
names in braces behind an `@` or a `$`. How far a string reaches is decided by the text: no two
strings of the language stand at the same place. They are read exactly where they stand, and are
written as they were read.

Where the opening mark stands and no string of the language, reading fails. What has committed then
is the segment, which does not end, or the interpolation, which does not close.

* `StringBody`, `IsString`: the language.
* `StringBody.unique`: a string of the language ends where it ends.
* `StringBody.split`, `ReadsString.isString`: its segments and interpolations.
* `stringLiteral_blames`: the rules that a failure may name.
* `stringLiteral_grammar`: reading a string.
-/

namespace LessSyntax.Grammar

open Rule Cursor

variable {quote : Quote} {q : Char}

/-! ## The language -/

/-- What may stand between the marks of a string. The second list holds the interpolations as they
are written, in order. -/
inductive StringBody (q : Char) : List Char → List (List Char) → Prop
  | nil : StringBody q [] []
  | plain {c : Char} {cs : List Char} {is : List (List Char)} (hmark : c ≠ q) (hescape : c ≠ '\\')
    (hline : c ≠ '\n') (hopen : ¬ ['@', '{'] <+: c :: cs ∧ ¬ ['$', '{'] <+: c :: cs)
    (hbody : StringBody q cs is) : StringBody q (c :: cs) is
  | escape {d : Char} {cs : List Char} {is : List (List Char)} (hbody : StringBody q cs is) :
    StringBody q ('\\' :: d :: cs) is
  | interpolation {mark : Char} {name cs : List Char} {is : List (List Char)}
    (hmark : mark = '@' ∨ mark = '$') (hname : IsName name) (hbody : StringBody q cs is) :
    StringBody q (mark :: '{' :: (name ++ '}' :: cs)) ((mark :: '{' :: (name ++ ['}'])) :: is)

/-- The text is a string with its marks, and these are its interpolations. -/
def IsString (q : Char) (text : List Char) (is : List (List Char)) : Prop :=
  ∃ body, StringBody q body is ∧ text = q :: body ++ [q]

theorem Mark.ne (hq : Mark quote q) : q ≠ '\\' ∧ q ≠ '{' ∧ q ≠ '@' ∧ q ≠ '$' := by
  cases hq <;> decide

/-- Before the closing mark a body opens no interpolation that it does not open by itself. -/
theorem opens_append {a x : Char} (hx : x ≠ '{') {c : Char} {cs k : List Char}
    (h : [a, '{'] <+: c :: (cs ++ x :: k)) : [a, '{'] <+: c :: cs := by
  obtain ⟨rfl, htail⟩ := List.cons_prefix_cons.mp h
  cases cs with
  | nil => exact absurd (List.cons_prefix_cons.mp htail).1.symm hx
  | cons y cs =>
    obtain ⟨rfl, -⟩ := List.cons_prefix_cons.mp htail
    exact ⟨cs, rfl⟩

theorem name_before_brace {name name' k k' : List Char} (h : IsName name) (h' : IsName name')
    (heq : name ++ '}' :: k = name' ++ '}' :: k') : name = name' ∧ k = k' := by
  have hstop : ∀ l, ∀ x ∈ ('}' :: l).head?, isNameChar x = false := fun _ => head_cons (by decide)
  have hname : name = name' := by
    rw [← takeWhile_append_stop h.all (hstop k), heq, takeWhile_append_stop h'.all (hstop k')]
  subst hname
  exact ⟨rfl, (List.cons.inj (List.append_cancel_left heq)).2⟩

/-- No two strings of the language stand at the same place. -/
theorem StringBody.unique (hq : Mark quote q) {body body' : List Char} {is is' : List (List Char)}
    {k k' : List Char} (h : StringBody q body is) (h' : StringBody q body' is')
    (heq : body ++ q :: k = body' ++ q :: k') : body = body' ∧ is = is' := by
  obtain ⟨hescape, hbrace, hat, hdollar⟩ := hq.ne
  have hopens {mark : Char} (hmark : mark = '@' ∨ mark = '$') : q ≠ mark ∧ mark ≠ '\\' := by
    rcases hmark with rfl | rfl
    · exact ⟨hat, by decide⟩
    · exact ⟨hdollar, by decide⟩
  -- a plain character does not open an interpolation
  have hclash {mark : Char} (hmark : mark = '@' ∨ mark = '$') {cs others k l : List Char}
      (hopen : ¬ ['@', '{'] <+: mark :: cs ∧ ¬ ['$', '{'] <+: mark :: cs)
      (htail : cs ++ q :: k = '{' :: others ++ l) : False := by
    have hprefix : [mark, '{'] <+: mark :: cs :=
      opens_append hbrace (k := k) ⟨others ++ l, by rw [htail]; rfl⟩
    rcases hmark with rfl | rfl
    · exact hopen.1 hprefix
    · exact hopen.2 hprefix
  induction h generalizing body' is' with
  | nil =>
    cases h' with
    | nil => exact ⟨rfl, rfl⟩
    | plain hmark => exact absurd (List.cons.inj heq).1.symm hmark
    | escape => exact absurd (List.cons.inj heq).1 hescape
    | interpolation hmark => exact absurd (List.cons.inj heq).1 (hopens hmark).1
  | @plain c cs is hmark hescape' hline hopen hbody ih =>
    cases h' with
    | nil => exact absurd (List.cons.inj heq).1 hmark
    | plain _ _ _ _ hbody' =>
      obtain ⟨rfl, htail⟩ := List.cons.inj heq
      obtain ⟨rfl, rfl⟩ := ih hbody' htail
      exact ⟨rfl, rfl⟩
    | escape => exact absurd (List.cons.inj heq).1 hescape'
    | interpolation hmark' =>
      obtain ⟨rfl, htail⟩ := List.cons.inj heq
      exact (hclash hmark' hopen htail).elim
  | escape hbody ih =>
    cases h' with
    | nil => exact absurd (List.cons.inj heq).1.symm hescape
    | plain _ hescape' => exact absurd (List.cons.inj heq).1.symm hescape'
    | escape hbody' =>
      obtain ⟨rfl, htail⟩ := List.cons.inj (List.cons.inj heq).2
      obtain ⟨rfl, rfl⟩ := ih hbody' htail
      exact ⟨rfl, rfl⟩
    | interpolation hmark' => exact absurd (List.cons.inj heq).1.symm (hopens hmark').2
  | interpolation hmark hname hbody ih =>
    cases h' with
    | nil => exact absurd (List.cons.inj heq).1.symm (hopens hmark).1
    | plain _ _ _ hopen =>
      obtain ⟨rfl, htail⟩ := List.cons.inj heq
      exact (hclash hmark hopen htail.symm).elim
    | escape => exact absurd (List.cons.inj heq).1 (hopens hmark).2
    | interpolation _ hname' hbody' =>
      obtain ⟨rfl, htail⟩ := List.cons.inj heq
      have hinner := (List.cons.inj htail).2
      rw [List.append_eq, List.append_eq, List.append_assoc, List.append_assoc] at hinner
      obtain ⟨rfl, hbehind⟩ := name_before_brace hname hname' hinner
      obtain ⟨rfl, rfl⟩ := ih hbody' hbehind
      exact ⟨rfl, rfl⟩

/-! ## Segments and interpolations -/

theorem opensInterpolation_iff {cs : List Char} :
    opensInterpolation cs = false ↔ ¬ ['@', '{'] <+: cs ∧ ¬ ['$', '{'] <+: cs := by
  rw [opensInterpolation, Bool.or_eq_false_iff, Bool.eq_false_iff, Bool.eq_false_iff, ne_eq, ne_eq,
    List.isPrefixOf_iff_prefix, List.isPrefixOf_iff_prefix]

/-- What a plain character is followed by counts only as far as it is a brace. -/
theorem endsSegment_congr {c : Char} {k l : List Char} (hk : ∀ x ∈ k.head?, x ≠ '{')
    (hl : ∀ x ∈ l.head?, x ≠ '{') : endsSegment quote c k = endsSegment quote c l := by
  have hnone : ∀ {m : List Char}, (∀ x ∈ m.head?, x ≠ '{') →
      endsSegment quote c m = ([c] == quote.chars) := by
    intro m hm
    cases m with
    | nil => simp [endsSegment, opensInterpolation]
    | cons x m => simp [endsSegment_cons, hm x rfl]
  rw [hnone hk, hnone hl]

/-- A plain character does not end a segment before what stands behind it, whatever follows that. -/
theorem endsSegment_append {c : Char} {t k l : List Char} (hk : ∀ x ∈ k.head?, x ≠ '{')
    (hl : ∀ x ∈ l.head?, x ≠ '{') :
    endsSegment quote c (t ++ k) = endsSegment quote c (t ++ l) := by
  cases t with
  | nil => exact endsSegment_congr hk hl
  | cons x t => rw [List.cons_append, List.cons_append, endsSegment_cons, endsSegment_cons]

theorem endsSegment_eq_false (hq : Mark quote q) {c : Char} {k : List Char} :
    endsSegment quote c k = false ↔
      c ≠ q ∧ ¬ ['@', '{'] <+: c :: k ∧ ¬ ['$', '{'] <+: c :: k := by
  rw [endsSegment, Bool.or_eq_false_iff, opensInterpolation_iff, hq.chars]
  simp

theorem isSegment_nil (hq : Mark quote q) : IsSegment quote [] := by
  rw [IsSegment, hq.chars]
  exact segmentEnd_here (endsSegment_mark hq []) 0

theorem segmentEnd_from {pos : Nat} {cs : List Char} {count : Nat} :
    segmentEnd quote pos cs = .ok (pos + count) ↔ segmentEnd quote 0 cs = .ok count := by
  have hshift := segmentEnd_shift quote pos 0 cs
  rw [Nat.add_zero] at hshift
  rw [hshift]
  cases segmentEnd quote 0 cs <;> simp

theorem isSegment_escape (hq : Mark quote q) {d : Char} {t : List Char} :
    IsSegment quote ('\\' :: d :: t) ↔ IsSegment quote t := by
  have hlength : ('\\' :: d :: t).length = 2 + t.length := by
    simp only [List.length_cons]
    omega
  rw [IsSegment, List.cons_append, List.cons_append, segmentEnd_escape hq, hlength, segmentEnd_from,
    IsSegment]

theorem isSegment_plain {c : Char} {t : List Char}
    (hends : endsSegment quote c (t ++ quote.chars) = false) (hescape : c ≠ '\\')
    (hline : c ≠ '\n') : IsSegment quote (c :: t) ↔ IsSegment quote t := by
  have hlength : (c :: t).length = 1 + t.length := by
    simp only [List.length_cons]
    omega
  rw [IsSegment, List.cons_append, segmentEnd_plain hends hescape hline, hlength, Nat.zero_add,
    segmentEnd_from, IsSegment]

/-- A segment, and behind it the rest of a body that does not go on with a brace. -/
theorem StringBody.segment_append (hq : Mark quote q) {cs : List Char} {is : List (List Char)}
    (hcs : StringBody q cs is) (hhead : ∀ x ∈ cs.head?, x ≠ '{') :
    ∀ t, IsSegment quote t → StringBody q (t ++ cs) is
  | [], _ => hcs
  | c :: t, h => by
    have hend := h
    rw [IsSegment, List.cons_append, hq.chars] at hend
    obtain ⟨d, ds, rfl, hsplit, hlater⟩ | ⟨hends, hescape, hline, -⟩ :=
      segmentEnd_cons_ok hend (by simp)
    · cases t with
      | nil =>
        -- the closing mark would belong to the escape
        obtain ⟨-, rfl⟩ := List.cons.inj hsplit
        cases hlater
      | cons d' t => exact .escape (segment_append hq hcs hhead t ((isSegment_escape hq).mp h))
    · have hplain : endsSegment quote c (t ++ cs) = false := by
        rw [← hends]
        exact endsSegment_append hhead (head_cons hq.ne.2.1)
      obtain ⟨hmark, hopen⟩ := (endsSegment_eq_false hq).mp hplain
      refine .plain hmark hescape hline hopen (segment_append hq hcs hhead t ?_)
      rw [← hq.chars] at hends
      exact (isSegment_plain hends hescape hline).mp h

/-- A body is a segment, and interpolations with a segment behind each of them. -/
theorem StringBody.split (hq : Mark quote q) {body : List Char} {is : List (List Char)}
    (h : StringBody q body is) :
    ∃ (t : List Char) (parts : List (Interpolation × Text)), IsSegment quote t ∧
      (∀ part ∈ parts, IsName part.1.name.chars ∧ IsSegment quote part.2.chars) ∧
      body = t ++ parts.flatMap printPart := by
  induction h with
  | nil => exact ⟨[], [], isSegment_nil hq, by simp, rfl⟩
  | @plain c cs is hmark hescape hline hopen hbody ih =>
    obtain ⟨t, parts, ht, hparts, rfl⟩ := ih
    refine ⟨c :: t, parts, (isSegment_plain ?_ hescape hline).mpr ht, hparts, rfl⟩
    have hhead : ∀ x ∈ (parts.flatMap printPart).head?, x ≠ '{' := by
      rcases parts with _ | ⟨⟨i | i, text⟩, parts⟩
      · simp
      · exact head_cons (by decide)
      · exact head_cons (by decide)
    rw [hq.chars, endsSegment_append (head_cons hq.ne.2.1) hhead]
    exact (endsSegment_eq_false hq).mpr ⟨hmark, hopen⟩
  | @escape d cs is hbody ih =>
    obtain ⟨t, parts, ht, hparts, rfl⟩ := ih
    exact ⟨'\\' :: d :: t, parts, (isSegment_escape hq).mpr ht, hparts, rfl⟩
  | @interpolation mark name cs is hmark hname hbody ih =>
    obtain ⟨t, parts, ht, hparts, rfl⟩ := ih
    obtain ⟨i, hi, hprint⟩ : ∃ i : Interpolation, i.name.chars = name ∧
        i.print = mark :: '{' :: (name ++ ['}']) := by
      rcases hmark with rfl | rfl
      · exact ⟨.variable (Text.owned name), rfl, rfl⟩
      · exact ⟨.property (Text.owned name), rfl, rfl⟩
    refine ⟨[], (i, Text.owned t) :: parts, isSegment_nil hq, ?_, ?_⟩
    · exact List.forall_mem_cons.mpr ⟨⟨hi ▸ hname, ht⟩, hparts⟩
    · simp [printPart, hprint, Text.owned]

/-! ## What is read -/

/-- The interpolations of a value as they are written. -/
def printedInterpolations (v : Value) : List (List Char) :=
  v.interpolations.map Interpolation.print

theorem ReadsInterpolation.print {c rest : Cursor} {i : Interpolation} (hc : c.Within)
    (h : ReadsInterpolation c i rest) : ∃ mark name, (mark = '@' ∨ mark = '$') ∧ IsName name ∧
      i.print = mark :: '{' :: (name ++ ['}']) ∧ c.Reads i.print rest := by
  cases h with
  | @ofVariable opened named _ cs hopen hname hclose his =>
    have hprint : (Interpolation.variable (opened.next cs.length)).print
        = ['@', '{'] ++ cs ++ ['}'] := by
      rw [Interpolation.print, hname.chars_next (hopen.within hc)]
      rfl
    refine ⟨'@', cs, .inl rfl, his, hprint, ?_⟩
    rw [hprint]
    exact (hopen.trans hname).trans hclose
  | @ofProperty opened named _ cs hopen hname hclose his =>
    have hprint : (Interpolation.property (opened.next cs.length)).print
        = ['$', '{'] ++ cs ++ ['}'] := by
      rw [Interpolation.print, hname.chars_next (hopen.within hc)]
      rfl
    refine ⟨'$', cs, .inr rfl, his, hprint, ?_⟩
    rw [hprint]
    exact (hopen.trans hname).trans hclose

/-- Interpolations with their segments are the rest of a body, and do not go on with a brace. -/
theorem ReadsParts.body (hq : Mark quote q) {c rest : Cursor} {parts : List (Interpolation × Text)}
    (hc : c.Within) (h : ReadsParts quote c parts rest) :
    c.Reads (parts.flatMap printPart) rest ∧
      StringBody q (parts.flatMap printPart) (parts.map fun part => part.1.print) ∧
      ∀ x ∈ (parts.flatMap printPart).head?, x ≠ '{' := by
  induction h with
  | nil => exact ⟨.refl _, .nil, by simp⟩
  | @cons c mid stop rest i t parts hpart hsegment his _ ih =>
    obtain ⟨mark, name, hmark, hname, hprint, hreads⟩ := hpart.print hc
    have hmid := hreads.within hc
    obtain ⟨hothers, hbody, hhead⟩ := ih (hsegment.within hmid)
    have htext : ((i, mid.next t.length) :: parts).flatMap printPart
        = i.print ++ (t ++ parts.flatMap printPart) := by
      rw [List.flatMap_cons, printPart, hsegment.chars_next hmid, List.append_assoc]
    rw [htext]
    refine ⟨hreads.trans (hsegment.trans hothers), ?_, ?_⟩
    · have hwhole := StringBody.interpolation hmark hname (hbody.segment_append hq hhead t his)
      rw [List.map_cons, hprint]
      simpa using hwhole
    · rw [hprint]
      rcases hmark with rfl | rfl <;> exact head_cons (by decide)

theorem Mark.eq {quote' : Quote} (hq : Mark quote q) (hq' : Mark quote' q) : quote' = quote := by
  cases hq <;> cases hq' <;> rfl

/-- What is read as a string is one, and is written as it was read. -/
theorem ReadsString.isString (hq : Mark quote q) {c rest : Cursor} {v : Value}
    (hc : c.Within) (hhead : q ∈ c.ahead.head?) (h : ReadsString c v rest) :
    ∃ text, IsString q text (printedInterpolations v) ∧ c.Reads text rest ∧
      (Tree.value v).toText = .ok (String.ofList text) ∧
      ((∃ t, v = .string t quote) ∧ printedInterpolations v = [] ∨
        (∃ first parts, v = .interpolated first parts quote) ∧ printedInterpolations v ≠ []) := by
  have hsame {quote' : Quote} {q' : Char} {opened : Cursor} (hq' : Mark quote' q')
      (hopen : c.Reads [q'] opened) : q' = q ∧ quote' = quote := by
    rw [hopen.ahead] at hhead
    obtain rfl : q' = q := Option.some.inj hhead
    exact ⟨rfl, hq.eq hq'⟩
  cases h with
  | @plain quote' q' opened closed _ t hq' hopen hsegment hclose his =>
    obtain ⟨rfl, rfl⟩ := hsame hq' hopen
    have hbody := StringBody.nil.segment_append hq (by simp) t his
    rw [List.append_nil] at hbody
    refine ⟨q' :: t ++ [q'], ⟨t, hbody, rfl⟩, (hopen.trans hsegment).trans hclose, ?_,
      .inl ⟨⟨_, rfl⟩, rfl⟩⟩
    rw [Tree.toText, if_pos (by simp [Value.hasLengths]), Value.print, hq.chars,
      hsegment.chars_next (hopen.within hc)]
    rfl
  | @interpolated quote' q' opened mid closed _ t parts hq' hopen hsegment hparts hclose his hne =>
    obtain ⟨rfl, rfl⟩ := hsame hq' hopen
    have hopened := hopen.within hc
    obtain ⟨hreads, hbody, hhead⟩ := hparts.body hq (hsegment.within hopened)
    have hprinted : printedInterpolations (.interpolated (opened.next t.length) parts quote')
        = parts.map fun part => part.1.print := by
      rw [printedInterpolations, Value.interpolations, List.map_map]
      rfl
    refine ⟨q' :: (t ++ parts.flatMap printPart) ++ [q'], ⟨_, ?_, rfl⟩, ?_, ?_,
      .inr ⟨⟨_, _, rfl⟩, ?_⟩⟩
    · rw [hprinted]
      exact hbody.segment_append hq hhead t his
    · exact (hopen.trans (hsegment.trans hreads)).trans hclose
    · rw [Tree.toText, if_pos (by simp [Value.hasLengths]), Value.print, hq.chars, renderSegments,
        hsegment.chars_next hopened]
      rfl
    · rw [hprinted]
      simpa using hne

/-- A string of the language that stands ahead is read to its end. -/
theorem stringLiteral_of_isString (hq : Mark quote q) {c : Cursor} (hc : c.Within)
    {text k : List Char} {is : List (List Char)} (h : IsString q text is)
    (hahead : c.ahead = text ++ k) :
    ∃ v, stringLiteral quote c = .matched v (c.advance text.length) := by
  obtain ⟨body, hbody, rfl⟩ := h
  obtain ⟨t, parts, ht, hparts, rfl⟩ := hbody.split hq
  cases parts with
  | nil =>
    rw [List.flatMap_nil, List.append_nil] at hahead ⊢
    have hsegment : IsSegment quote (Text.owned t).chars := ht
    obtain ⟨v, hv, -⟩ := accepts_plainString (k := k) hq hsegment c hc hahead
    exact ⟨v, hv⟩
  | cons part parts =>
    have hassoc : q :: (t ++ (part :: parts).flatMap printPart) ++ [q]
        = q :: t ++ ((part :: parts).flatMap printPart ++ [q]) := by simp
    rw [hassoc] at hahead ⊢
    have hsegment : IsSegment quote (Text.owned t).chars := ht
    obtain ⟨v, hv, -⟩ := accepts_interpolatedString (k := k) hq hsegment hparts c hc hahead
    exact ⟨v, hv⟩

/-! ## What a failure names -/

/-- The rules that commit inside a string. -/
def stringRules : List String := ["string", "string interpolation"]

theorem segment_blames (quote : Quote) : (segment quote).Blames stringRules := by
  intro c place expected blamed h
  unfold segment at h
  split at h
  · cases h
  · cases h
    exact List.mem_cons_self

theorem quoteMark_blames (quote : Quote) {names : List String} :
    (quoteMark quote).Blames names := by
  intro c place expected blamed h
  unfold quoteMark at h
  split at h <;> cases h

theorem interpolation_blames {names : List String} : interpolation.Blames names := by
  have hname (chars : List Char) :
      (delimited (literal chars) name (literal ['}'])).Blames names :=
    blames_preceded (blames_literal chars)
      (blames_terminated (blames_scan nameLength? "identifier") (blames_literal _))
  refine blames_choice fun r hr => ?_
  simp only [List.mem_cons, List.not_mem_nil, or_false] at hr
  rcases hr with rfl | rfl
  · exact blames_map (hname _)
  · exact blames_map (hname _)

theorem stringPart_blames (quote : Quote) : (stringPart quote).Blames stringRules := by
  have hcut : (cut interpolation "string interpolation").Blames stringRules :=
    blames_cut interpolation_blames (by decide)
  have hboth := blames_both hcut (segment_blames quote)
  intro c place expected blamed h
  unfold stringPart at h
  split at h
  · cases h
  · exact hboth c place expected blamed h

theorem stringLiteral_blames (quote : Quote) : (stringLiteral quote).Blames stringRules := by
  have hparts := blames_terminated (blames_many1 (stringPart_blames quote)) (quoteMark_blames quote)
  refine blames_bind (blames_preceded (quoteMark_blames quote) (segment_blames quote))
    fun first => ?_
  intro c place expected blamed h
  dsimp only at h
  split at h
  · cases h
  · exact blames_map (f := fun parts : OneOrMore _ => Value.interpolated first parts.toList quote)
      hparts c place expected blamed h

/-! ## Where nothing misses -/

theorem segment_neverMisses (quote : Quote) : NeverMisses (segment quote) := by
  rintro c ⟨place, expected, h⟩
  unfold segment at h
  split at h <;> cases h

/-- Interpolations end nowhere but at the closing mark. -/
theorem startsWith_of_stringPart_misses {c : Cursor} (h : MissesAt (stringPart quote) c) :
    c.startsWith quote.chars = true := by
  obtain ⟨place, expected, h⟩ := h
  unfold stringPart at h
  split at h
  · assumption
  · rcases misses_of_both ⟨place, expected, h⟩ with hmiss | ⟨i, mid, -, hmiss⟩
    · exact absurd hmiss (neverMisses_cut _ _ c)
    · exact absurd hmiss (segment_neverMisses quote mid)

/-- Where no closing mark stands, interpolations follow up to one, or reading fails. -/
theorem stringParts_commits (hq : Mark quote q) {c : Cursor} (hc : c.Within)
    (hstarts : c.startsWith quote.chars = false) : ¬ MissesAt (stringParts quote) c := by
  intro h
  have hpart {mid : Cursor} (hmiss : MissesAt (stringPart quote) mid) :=
    startsWith_of_stringPart_misses hmiss
  rcases misses_of_both (misses_of_map h) with hmiss | ⟨parts, closed, hparts, hmiss⟩
  · rcases misses_of_bind hmiss with hmiss | ⟨part, mid, -, hmiss⟩
    · rw [hpart hmiss] at hstarts
      cases hstarts
    · exact neverMisses_manyUpTo _ _ mid (misses_of_map hmiss)
  · obtain ⟨part, mid, hfirst, hothers⟩ := Outcome.bind_matched.mp hparts
    obtain ⟨others, hmany, -⟩ := Outcome.map_matched.mp hothers
    have hmid := (stringPart_ensures hq c part mid hc hfirst).1.within hc
    have hclosed := hpart (many_matched_misses (stringPart_advances hq) hmid hmany)
    obtain ⟨place, expected, hmiss⟩ := hmiss
    rw [quoteMark, if_pos hclosed] at hmiss
    cases hmiss

/-- Behind the opening mark nothing is left to other rules. -/
theorem stringLiteral_commits (hq : Mark quote q) {c : Cursor} (hc : c.Within)
    (hhead : q ∈ c.ahead.head?) : ¬ MissesAt (stringLiteral quote) c := by
  intro h
  obtain ⟨k, hahead⟩ := List.head?_eq_some_iff.mp hhead
  rcases misses_of_bind h with hmiss | ⟨first, mid, hfirst, hmiss⟩
  · rcases misses_of_both (misses_of_map hmiss) with ⟨place, expected, hmiss⟩ | ⟨v, mid, -, hmiss⟩
    · obtain ⟨v, hv, -⟩ := accepts_quoteMark (k := k) hq c hc hahead
      rw [hv] at hmiss
      cases hmiss
    · exact segment_neverMisses quote mid hmiss
  · obtain ⟨w, hboth, rfl⟩ := map_matched.mp hfirst
    obtain ⟨opened, hmark, hsegment⟩ := both_matched.mp hboth
    have hopened := (quoteMark_matched hq hc hmark).within hc
    obtain ⟨t, hreads, -⟩ := segment_matched hq hopened hsegment
    obtain ⟨place, expected, hmiss⟩ := hmiss
    dsimp only at hmiss
    split at hmiss
    · cases hmiss
    · rename_i hstarts
      exact stringParts_commits hq (hreads.within hopened) (Bool.eq_false_iff.mpr hstarts)
        (misses_of_map (f := fun parts : OneOrMore _ => Value.interpolated w.2 parts.toList quote)
          ⟨place, expected, hmiss⟩)

/-! ## Strings -/

/-- **String literals are their language.** A rule for strings matches exactly where a string of the
language stands. There is one such string then; it is all that is read, and the value is written as
it stands there and has its interpolations. Where the opening mark does not stand the rule misses;
anywhere else it fails, and the failure names one of the two rules that commit. -/
theorem stringLiteral_grammar (hq : Mark quote q) {c : Cursor} (hc : c.Within) :
    ((∃ v rest, stringLiteral quote c = .matched v rest) ↔
      ∃ text is, IsString q text is ∧ text <+: c.ahead) ∧
    (∀ text is, IsString q text is → text <+: c.ahead →
      (∀ text' is', IsString q text' is' → text' <+: c.ahead → text' = text ∧ is' = is) ∧
      ∃ v, stringLiteral quote c = .matched v (c.advance text.length) ∧
        (Tree.value v).toText = .ok (String.ofList text) ∧ printedInterpolations v = is ∧
        ((∃ t, v = .string t quote) ∧ is = [] ∨
          (∃ first parts, v = .interpolated first parts quote) ∧ is ≠ [])) ∧
    (c.ahead.head? ≠ some q → ∃ place expected, stringLiteral quote c = .missed place expected) ∧
    (c.ahead.head? = some q → (∀ text is, IsString q text is → ¬ text <+: c.ahead) →
      ∃ place expected blamed, stringLiteral quote c = .failed place expected blamed ∧
        (blamed = "string" ∨ blamed = "string interpolation")) := by
  have hunique : ∀ text is text' is', IsString q text is → text <+: c.ahead → IsString q text' is' →
      text' <+: c.ahead → text' = text ∧ is' = is := by
    rintro _ is _ is' ⟨body, hbody, rfl⟩ ⟨k, hk⟩ ⟨body', hbody', rfl⟩ ⟨k', hk'⟩
    have heq : body' ++ q :: k' = body ++ q :: k := by
      have hwhole := hk'.trans hk.symm
      simpa using hwhole
    obtain ⟨rfl, rfl⟩ := hbody'.unique hq hbody heq
    exact ⟨rfl, rfl⟩
  have hread : ∀ v rest, stringLiteral quote c = .matched v rest → ∃ text,
      IsString q text (printedInterpolations v) ∧ c.Reads text rest ∧
      (Tree.value v).toText = .ok (String.ofList text) ∧
      ((∃ t, v = .string t quote) ∧ printedInterpolations v = [] ∨
        (∃ first parts, v = .interpolated first parts quote) ∧ printedInterpolations v ≠ []) := by
    intro v rest h
    obtain ⟨-, hstring⟩ := stringLiteral_ensures hq c v rest hc h
    refine hstring.isString hq hc ?_
    by_cases hhead : q ∈ c.ahead.head?
    · exact hhead
    · obtain ⟨place, expected, hmiss⟩ := stringLiteral_refuses hq (k := c.ahead)
        (fun x hx hxq => hhead (hxq ▸ hx)) c hc rfl
      rw [hmiss] at h
      cases h
  refine ⟨⟨?_, ?_⟩, ?_, ?_, ?_⟩
  · rintro ⟨v, rest, h⟩
    obtain ⟨text, his, hreads, -⟩ := hread v rest h
    exact ⟨text, _, his, rest.ahead, hreads.ahead.symm⟩
  · rintro ⟨text, is, his, k, hk⟩
    obtain ⟨v, h⟩ := stringLiteral_of_isString hq hc his hk.symm
    exact ⟨v, _, h⟩
  · intro text is his hprefix
    refine ⟨fun text' is' => hunique text is text' is' his hprefix, ?_⟩
    obtain ⟨k, hk⟩ := hprefix
    obtain ⟨v, h⟩ := stringLiteral_of_isString hq hc his hk.symm
    obtain ⟨text', his', hreads, hprint, hkind⟩ := hread v _ h
    obtain ⟨rfl, rfl⟩ := hunique text is text' _ his ⟨k, hk⟩ his' ⟨_, hreads.ahead.symm⟩
    exact ⟨v, h, hprint, rfl, hkind⟩
  · intro hhead
    exact stringLiteral_refuses hq (k := c.ahead) (fun x hx hxq => hhead (hxq ▸ hx)) c hc rfl
  · intro hhead hnone
    cases h : stringLiteral quote c with
    | matched v rest =>
      obtain ⟨text, his, hreads, -⟩ := hread v rest h
      exact absurd ⟨rest.ahead, hreads.ahead.symm⟩ (hnone text _ his)
    | missed place expected => exact absurd ⟨place, expected, h⟩ (stringLiteral_commits hq hc hhead)
    | failed place expected blamed =>
      have hblamed := stringLiteral_blames quote c place expected blamed h
      exact ⟨place, expected, blamed, rfl, by simpa [stringRules] using hblamed⟩

/-- A string with an interpolation and an escaped mark. -/
theorem stringLiteral_escaped :
    ∃ c v, c.Within ∧ c.ahead = ['"', 'a', '@', '{', 'x', '}', '\\', '"', '"', '!'] ∧
      stringLiteral .double c = .matched v (c.advance 9) ∧
      (Tree.value v).toText = .ok (String.ofList ['"', 'a', '@', '{', 'x', '}', '\\', '"', '"']) ∧
      printedInterpolations v = [['@', '{', 'x', '}']] := by
  have hc := within_ofText ['"', 'a', '@', '{', 'x', '}', '\\', '"', '"', '!']
  have hname : IsName ['x'] := rfl
  have hbody : StringBody '"' ['a', '@', '{', 'x', '}', '\\', '"'] [['@', '{', 'x', '}']] :=
    .plain (by decide) (by decide) (by decide) (by decide)
      (.interpolation (.inl rfl) hname (.escape .nil))
  obtain ⟨-, hstring, -⟩ := stringLiteral_grammar .double hc
  obtain ⟨-, v, h, hprint, his, -⟩ := hstring _ _ ⟨_, hbody, rfl⟩ ⟨['!'], rfl⟩
  exact ⟨_, v, hc, rfl, h, hprint, his⟩

end LessSyntax.Grammar
