import LessSyntax.Grammar.Value
import LessSyntax.Proofs.Lexeme.Color
import LessSyntax.Proofs.Lexeme.Number
import LessSyntax.Proofs.Lexeme.StringLiteral
import LessSyntax.Proofs.Lexeme.Url
import LessSyntax.Proofs.TriviaRun

/-!
# What is read as a value

A primitive value is read by the first of eight rules that does not miss. What is read shows
which of them it was, and what the rules before it did not find. Lists are read as one element
after the other, each behind what joins it to the one before.

The relations are stated over any postcondition `P` for the arguments of calls. As soon as what
is read as a list with blanks has the postcondition again, the arguments have it at every level
(`argument?_ensures`).

* `ReadsPrimitive`, `ReadsList`, `ReadsValue`: the characters that values are read from.
* `primitive_ensures`, `valueAt_ensures`: every value is read like this.
* `ReadsPrimitive.head`: no primitive value begins with a blank, and only strings begin with a
  quotation mark.
-/

namespace LessSyntax.Grammar

open Rule

variable {s : Settings} {inner? : Option (Rule Value)} {lineComments : Bool}
  {P : Cursor → Value → Cursor → Prop}

/-! ## Calls -/

/-- Arguments with commas between them, or none, and the closing parenthesis. -/
inductive ReadsArguments (lineComments : Bool) (P : Cursor → Value → Cursor → Prop) (c : Cursor) :
    List Value → Cursor → Prop
  | none {rest : Cursor} (hclose : ReadsSymbol lineComments [')'] c rest) :
    ReadsArguments lineComments P c [] rest
  | some {mid stop rest : Cursor} {v : Value} {vs : List Value} (hfirst : P c v mid)
    (hothers : ReadsAll (fun c a rest => ∃ next, ReadsSymbol lineComments [','] c next ∧
      P next a rest) mid vs stop)
    (hclose : ReadsSymbol lineComments [')'] stop rest) :
    ReadsArguments lineComments P c (v :: vs) rest

theorem arguments_ensures {argument : Rule Value}
    (hargument : argument.Ensures P) :
    (arguments s argument).Ensures (ReadsArguments s.lineComments P) := by
  refine ensures_map (ensures_cut ?_)
  have hopt : (opt (separated1 argument (symbol s [',']) "function")).Ensures
      fun c found stop => ∀ rest, ReadsSymbol s.lineComments [')'] stop rest →
        ReadsArguments s.lineComments P c ((found.map OneOrMore.toList).getD []) rest := by
    refine ensures_opt ?_ fun c rest hclose => .none hclose
    apply ensures_mono (separated1_ensures (by simp) hargument)
    rintro c vs stop - - ⟨mid, hfirst, hothers⟩ rest hclose
    exact .some hfirst hothers hclose
  apply ensures_terminated hopt (symbol_ensures (by simp))
  intro c found stop _ rest _ _ hfound hclose
  exact hfound rest hclose

/-- A call is read as a name, an opening parenthesis and arguments one level deeper. -/
inductive ReadsCall (lineComments : Bool) (P : Cursor → Value → Cursor → Prop) (c : Cursor) :
    Value → Cursor → Prop
  | intro {named opened stop : Cursor} {cs : List Char} {found : List Value}
    (hname : c.Reads cs named) (hopen : named.Reads ['('] opened) (his : IsName cs)
    (hfound : ReadsArguments lineComments P opened.nested found stop)
    (hreach : opened.nested.Reaches stop) :
    ReadsCall lineComments P c (.call (c.next cs.length) found) (stop.withDepth c.depth)

theorem ReadsCall.reaches {c rest : Cursor} {v : Value} (h : ReadsCall lineComments P c v rest) :
    c.Reaches rest := by
  cases h with
  | intro hname hopen _ _ hreach =>
    obtain ⟨cs, hreads⟩ := hreach
    have hinside := hreads.of_nested
    rw [(hname.trans hopen).depth] at hinside
    exact ⟨_, (hname.trans hopen).trans hinside⟩

theorem callOver_ensures (hinner : ∀ argument ∈ inner?, Ensures argument P) :
    (callOver s inner?).Ensures (ReadsCall s.lineComments P) := by
  intro c v rest hc h
  suffices hcall : ReadsCall s.lineComments P c v rest from ⟨hcall.reaches, hcall⟩
  unfold callOver at h
  split at h
  · rename_i callee named hname
    obtain ⟨cs, hreads, his, rfl⟩ := name_matched hc hname
    split at h
    · rename_i hstarts
      have hopen := Cursor.Reads.of_startsWith (hreads.within hc) hstarts
      split at h
      · cases h
      · obtain ⟨found, stop, hfound, h⟩ := Outcome.bind_matched.mp h
        cases h
        have hopened := hopen.within (hreads.within hc)
        obtain ⟨hreach, harguments⟩ :=
          arguments_ensures (hinner _ rfl) _ found stop hopened.nested hfound
        exact .intro hreads hopen his harguments hreach
    · cases h
  · cases h

/-! ## Primitive values -/

/-- A primitive value is read in one of eight ways. Names and calls come behind numbers, and
calls behind addresses. -/
inductive ReadsPrimitive (lineComments : Bool) (P : Cursor → Value → Cursor → Prop) (c : Cursor) :
    Value → Cursor → Prop
  | ofString {v : Value} {rest : Cursor} (h : ReadsString c v rest) :
    ReadsPrimitive lineComments P c v rest
  | ofColor {start rest : Cursor} {t : List Char} (hmark : c.Reads ['#'] start)
    (hhex : start.Reads t rest) (his : IsHex t) :
    ReadsPrimitive lineComments P c (.color (start.next t.length)) rest
  | ofNumber {v : Value} {rest : Cursor} (h : ReadsNumber c v rest) :
    ReadsPrimitive lineComments P c v rest
  | ofUrl {v : Value} {rest : Cursor} (h : ReadsUrl c v rest) :
    ReadsPrimitive lineComments P c v rest
  | ofCall {v : Value} {rest : Cursor} (hnumber : numberLength? c.ahead = none)
    (hurl : MissesAt url c) (h : ReadsCall lineComments P c v rest) :
    ReadsPrimitive lineComments P c v rest
  | ofVariable {start rest : Cursor} {cs : List Char} (hmark : c.Reads ['@'] start)
    (hname : start.Reads cs rest) (his : IsName cs) :
    ReadsPrimitive lineComments P c (.variable (start.next cs.length)) rest
  | ofProperty {start rest : Cursor} {cs : List Char} (hmark : c.Reads ['$'] start)
    (hname : start.Reads cs rest) (his : IsName cs) :
    ReadsPrimitive lineComments P c (.property (start.next cs.length)) rest
  | ofIdentifier {rest : Cursor} {cs : List Char} (hnumber : numberLength? c.ahead = none)
    (hname : c.Reads cs rest) (his : IsName cs) :
    ReadsPrimitive lineComments P c (.identifier (c.next cs.length)) rest

/-- The choice between the eight rules. -/
theorem primitive_choice (hinner : ∀ argument ∈ inner?, Ensures argument P)
    {expected : Option String} {c rest : Cursor} {v : Value} (hc : c.Within)
    (h : choice [quotedString, color, number, url, callOver s inner?, map Value.variable atName,
      map Value.property (nameAfter ['$']), map Value.identifier name] expected c
        = .matched v rest) : ReadsPrimitive s.lineComments P c v rest := by
  rcases choice_cons_matched h with h | ⟨-, h⟩
  · exact .ofString (quotedString_ensures c v rest hc h).2
  rcases choice_cons_matched h with h | ⟨-, h⟩
  · obtain ⟨t, hmark, hhex, his, rfl⟩ := color_matched hc h
    exact .ofColor hmark hhex his
  rcases choice_cons_matched h with h | ⟨hnumber, h⟩
  · exact .ofNumber (number_matched hc h)
  have hnumber := numberLength?_of_misses hc hnumber
  rcases choice_cons_matched h with h | ⟨hurl, h⟩
  · exact .ofUrl (url_ensures c v rest hc h).2
  rcases choice_cons_matched h with h | ⟨-, h⟩
  · exact .ofCall hnumber hurl (callOver_ensures hinner c v rest hc h).2
  rcases choice_cons_matched h with h | ⟨-, h⟩
  · obtain ⟨t, hname, rfl⟩ := map_matched.mp h
    have hread : atName.Ensures fun c t rest =>
        ReadsPrimitive s.lineComments P c (.variable t) rest :=
      atName_ensures fun _ _ _ _ hmark hname his => .ofVariable hmark hname his
    exact (hread c t rest hc hname).2
  rcases choice_cons_matched h with h | ⟨-, h⟩
  · obtain ⟨t, hname, rfl⟩ := map_matched.mp h
    have hread : (nameAfter ['$']).Ensures fun c t rest =>
        ReadsPrimitive s.lineComments P c (.property t) rest :=
      nameAfter_ensures fun _ _ _ _ hmark hname his => .ofProperty hmark hname his
    exact (hread c t rest hc hname).2
  rcases choice_cons_matched h with h | ⟨-, h⟩
  · obtain ⟨t, hname, rfl⟩ := map_matched.mp h
    obtain ⟨cs, hreads, his, rfl⟩ := name_matched hc hname
    exact .ofIdentifier hnumber hreads his
  · cases h

theorem ReadsPrimitive.reaches {c rest : Cursor} {v : Value}
    (h : ReadsPrimitive lineComments P c v rest) : c.Reaches rest := by
  cases h with
  | ofString h => exact h.reaches
  | ofColor hmark hhex _ => exact ⟨_, hmark.trans hhex⟩
  | ofNumber h => exact h.reaches
  | ofUrl h => exact h.reaches
  | ofCall _ _ h => exact h.reaches
  | ofVariable hmark hname _ => exact ⟨_, hmark.trans hname⟩
  | ofProperty hmark hname _ => exact ⟨_, hmark.trans hname⟩
  | ofIdentifier _ hname _ => exact ⟨_, hname⟩

theorem primitive_ensures (hinner : ∀ argument ∈ inner?, Ensures argument P) :
    (primitiveOver s inner?).Ensures
      (ReadsToken s.lineComments (ReadsPrimitive s.lineComments P)) := by
  intro c v rest hc h
  obtain ⟨_, mid, htrivia, hchoice⟩ := Outcome.bind_matched.mp h
  obtain ⟨hreach, hskip⟩ := trivia_ensures c _ mid hc htrivia
  have hmid := hreach.within hc
  have hprimitive := primitive_choice hinner hmid hchoice
  exact ⟨hreach.trans hprimitive.reaches, mid, hskip, hmid, hprimitive⟩

/-! ## Lists -/

/-- What joins an element of a list to the one before it. Blanks are read with the element. -/
def ReadsJoint (lineComments : Bool) (separator : Separator) (c rest : Cursor) : Prop :=
  match separator with
  | .space => rest = c
  | .slash => ReadsSymbol lineComments ['/'] c rest
  | .comma => ReadsSymbol lineComments [','] c rest

/-- A list is read as its first element and further ones behind their joints; a list of one
element is that element. -/
def ReadsList (lineComments : Bool) (separator : Separator)
    (Q : Cursor → Value → Cursor → Prop) (c : Cursor) (v : Value) (rest : Cursor) : Prop :=
  ∃ vs mid, v = collapse separator vs ∧ Q c vs.first mid ∧
    ReadsAll (fun c a rest => ∃ next, ReadsJoint lineComments separator c next ∧ Q next a rest)
      mid vs.others rest

def ReadsSlashList (lineComments : Bool) (P : Cursor → Value → Cursor → Prop) :
    Cursor → Value → Cursor → Prop :=
  ReadsList lineComments .slash (ReadsToken lineComments (ReadsPrimitive lineComments P))

def ReadsSpaceList (lineComments : Bool) (P : Cursor → Value → Cursor → Prop) :
    Cursor → Value → Cursor → Prop :=
  ReadsList lineComments .space (ReadsSlashList lineComments P)

def ReadsValue (lineComments : Bool) (P : Cursor → Value → Cursor → Prop) :
    Cursor → Value → Cursor → Prop :=
  ReadsList lineComments .comma (ReadsSpaceList lineComments P)

section

variable (hinner : ∀ argument ∈ inner?, Ensures argument P)
include hinner

theorem slashListOver_ensures :
    (slashListOver s inner?).Ensures (ReadsSlashList s.lineComments P) := by
  refine ensures_map (ensures_mono
    (separated1_ensures (by simp) (primitive_ensures hinner)) ?_)
  rintro c vs rest - - ⟨mid, hfirst, hothers⟩
  exact ⟨vs, mid, rfl, hfirst, hothers⟩

theorem spaceListOver_ensures :
    (spaceListOver s inner?).Ensures (ReadsSpaceList s.lineComments P) := by
  refine ensures_map (ensures_mono (many1_ensures (slashListOver_ensures hinner)) ?_)
  rintro c ⟨first, others⟩ rest - - hall
  cases hall with
  | cons hfirst hothers =>
    refine ⟨⟨first, others⟩, _, rfl, hfirst, hothers.mono fun c a rest hQ => ?_⟩
    exact ⟨c, rfl, hQ⟩

theorem commaListOver_ensures :
    (commaListOver s inner?).Ensures (ReadsValue s.lineComments P) := by
  refine ensures_map (ensures_mono
    (separated1_ensures (by simp) (spaceListOver_ensures hinner)) ?_)
  rintro c vs rest - - ⟨mid, hfirst, hothers⟩
  exact ⟨vs, mid, rfl, hfirst, hothers⟩

end

/-! ## All levels -/

section

variable (hstep : ∀ c v rest, c.Within → c.Reaches rest → ReadsSpaceList s.lineComments P c v rest →
  P c v rest)
include hstep

/-- A postcondition that the lists of values hand on holds of the arguments at every level. -/
theorem argument?_ensures (levels : Nat) :
    ∀ argument ∈ argument? s levels, Ensures argument P := by
  induction levels with
  | zero =>
    intro argument h
    cases h
  | succ levels ih =>
    intro argument h
    cases h
    exact ensures_mono (spaceListOver_ensures ih) hstep

theorem valueAt_ensures (levels : Nat) :
    (valueAt s levels).Ensures (ReadsValue s.lineComments P) :=
  commaListOver_ensures (argument?_ensures hstep levels)

end

/-! ## What a primitive value begins with -/

/-- A class of characters that holds neither boundaries nor quotation marks. -/
theorem plain_of_class {isIn : Char → Bool} (hboundary : ∀ x ∈ boundaryChars, isIn x = false)
    (hquote : isIn '"' = false ∧ isIn '\'' = false) {x : Char} (hx : isIn x = true) :
    isBlank x = false ∧ isQuotationMark x = false := by
  refine ⟨Bool.eq_false_iff.mpr fun hblank => ?_, Bool.eq_false_iff.mpr fun hmark => ?_⟩
  · exact notMem_of_apart hboundary hx (isBlank_mem_boundaryChars hblank)
  · simp only [isQuotationMark, Bool.or_eq_true, beq_iff_eq] at hmark
    rcases hmark with rfl | rfl
    · exact ne_of_class hx hquote.1 rfl
    · exact ne_of_class hx hquote.2 rfl

theorem plain_of_isNameChar {x : Char} (hx : isNameChar x = true) :
    isBlank x = false ∧ isQuotationMark x = false :=
  plain_of_class isNameChar_boundary (by decide) hx

theorem plain_of_isNumeric {x : Char} (hx : isNumeric x = true) :
    isBlank x = false ∧ isQuotationMark x = false :=
  plain_of_class isNumeric_boundary (by decide) hx

theorem ReadsString.head {c rest : Cursor} {v : Value} (h : ReadsString c v rest) :
    ∃ x l, c.ahead = x :: l ∧ isBlank x = false ∧ opensQuoted v.print = true := by
  have hmark : ∀ {quote : Quote} {q : Char}, Mark quote q →
      isBlank q = false ∧ isQuotationMark q = true := by
    intro quote q hq
    cases hq <;> decide
  cases h with
  | plain hq hopen _ _ _ | interpolated hq hopen _ _ _ _ _ =>
    refine ⟨_, _, hopen.ahead, (hmark hq).1, ?_⟩
    simp only [Value.print, hq.chars, List.cons_append, opensQuoted]
    exact (hmark hq).2

/-- A primitive value begins with no blank, and with a quotation mark only if it is written with
one. -/
theorem ReadsPrimitive.head {c rest : Cursor} {v : Value}
    (h : ReadsPrimitive lineComments P c v rest) :
    ∃ x l, c.ahead = x :: l ∧ isBlank x = false ∧
      (isQuotationMark x = true → opensQuoted v.print = true) := by
  have hplain : ∀ {x : Char} {l : List Char}, c.ahead = x :: l →
      isBlank x = false ∧ isQuotationMark x = false →
      ∃ x l, c.ahead = x :: l ∧ isBlank x = false ∧
        (isQuotationMark x = true → opensQuoted v.print = true) := by
    rintro x l hahead ⟨hblank, hquote⟩
    refine ⟨x, l, hahead, hblank, fun hmark => ?_⟩
    rw [hquote] at hmark
    cases hmark
  have hnamed : ∀ {cs : List Char} {named : Cursor}, c.Reads cs named → IsName cs →
      ∃ x l, c.ahead = x :: l ∧ isBlank x = false ∧ isQuotationMark x = false := by
    intro cs named hname his
    obtain ⟨x, l, rfl, hx⟩ := his.cons
    exact ⟨x, _, hname.ahead, plain_of_isNameChar hx⟩
  cases h with
  | ofString h =>
    obtain ⟨x, l, hahead, hblank, hquote⟩ := h.head
    exact ⟨x, l, hahead, hblank, fun _ => hquote⟩
  | ofColor hmark _ _ => exact hplain hmark.ahead (by decide)
  | ofNumber h =>
    cases h with
    | plain hvalue htext | withUnit hvalue _ _ htext =>
      obtain ⟨x, l, rfl, hx⟩ := htext.cons
      exact hplain hvalue.ahead (plain_of_isNumeric hx)
  | ofUrl h =>
    cases h with
    | intro hcallee hopen _ _ _ _ _ _ =>
      obtain ⟨x, l, rfl, hx⟩ := hcallee.cons
      exact hplain hopen.ahead (plain_of_isNameChar hx)
  | ofCall _ _ h =>
    cases h with
    | intro hname _ his _ _ =>
      obtain ⟨x, l, hahead, hx⟩ := hnamed hname his
      exact hplain hahead hx
  | ofVariable hmark _ _ => exact hplain hmark.ahead (by decide)
  | ofProperty hmark _ _ => exact hplain hmark.ahead (by decide)
  | ofIdentifier _ hname his =>
    obtain ⟨x, l, hahead, hx⟩ := hnamed hname his
    exact hplain hahead hx

end LessSyntax.Grammar
