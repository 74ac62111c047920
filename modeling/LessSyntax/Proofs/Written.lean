import LessSyntax.Proofs.ValueReading

/-!
# Values that can be written

Not every tree is one that a source stands for. In those that are, the texts are of their kind,
lists have two elements at least and hold only what binds tighter, and names do not begin with
what would be read as a number or an address. These are the values that are read again when
they are written.

* `Value.Written`: the values that can be written where lists up to a rank may stand.
* `valueAt_written`: every value that is read is one of them.
* `Value.Written.hasLengths`: such a value has a written form.
-/

namespace LessSyntax

open Grammar

/-- Slashes bind tightest, and commas least. -/
def Separator.rank : Separator → Nat
  | .slash => 1
  | .space => 2
  | .comma => 3

namespace Value

/-- The arguments of a call as they are written. -/
def argumentsText (arguments : List Value) : List Char :=
  [',', ' '].intercalate (Value.printAll arguments)

mutual

/-- The value can be written where a list is expected whose separator has the given rank, or one
that binds tighter. -/
def Written : Nat → Value → Prop
  | _, .string text quote => StringText (.string text quote)
  | _, .interpolated first parts quote => StringText (.interpolated first parts quote)
  | _, .number value unit =>
    NumberText value.chars ((unit.map Text.chars).getD []) ∧
      ∀ u ∈ unit, u.chars ≠ [] ∧ u.hasLength = true
  | _, .color hex => IsHex hex.chars
  | _, .identifier name => IsName name.chars ∧ numberLength? name.chars = none
  | _, .variable name => IsName name.chars
  | _, .property name => IsName name.chars
  | _, .call name arguments =>
    (IsName name.chars ∧ numberLength? name.chars = none) ∧
      (CallsUrl name.chars → opensQuoted (argumentsText arguments) = true) ∧
      AllWritten 2 arguments
  | _, .url address => IsAddress address.chars
  | rank, .list values separator =>
    separator.rank ≤ rank ∧ 2 ≤ values.length ∧ AllWritten (separator.rank - 1) values
  | _, .ruleset _ => False

def AllWritten : Nat → List Value → Prop
  | _, [] => True
  | rank, v :: vs => Written rank v ∧ AllWritten rank vs

end

theorem allWritten_iff {rank : Nat} {vs : List Value} :
    AllWritten rank vs ↔ ∀ v ∈ vs, v.Written rank := by
  induction vs with
  | nil => simp [AllWritten]
  | cons v vs ih => simp [AllWritten, ih]

/-- What can be written in a place can be written where looser lists may stand too. -/
theorem Written.mono {rank rank' : Nat} (hle : rank ≤ rank') {v : Value} (h : v.Written rank) :
    v.Written rank' := by
  cases v <;> simp only [Written] at h ⊢ <;> try exact h
  exact ⟨Nat.le_trans h.1 hle, h.2⟩

end Value

namespace Grammar

/-! ## Lists of one element or more -/

theorem collapse_cons (separator : Separator) (v : Value) {vs : List Value} (hne : vs ≠ []) :
    collapse separator ⟨v, vs⟩ = .list (v :: vs) separator := by
  cases vs with
  | nil => exact absurd rfl hne
  | cons w vs => rfl

/-- A value of a rank is made up of values of the rank below it. -/
theorem written_collapse {separator : Separator} {vs : OneOrMore Value}
    (h : ∀ v ∈ vs.toList, v.Written (separator.rank - 1)) :
    (collapse separator vs).Written separator.rank := by
  obtain ⟨v, vs⟩ := vs
  by_cases hne : vs = []
  · subst hne
    exact (h v List.mem_cons_self).mono (Nat.sub_le _ 1)
  · rw [collapse_cons separator v hne, Value.Written]
    refine ⟨Nat.le_refl _, ?_, Value.allWritten_iff.mpr h⟩
    have := List.length_pos_iff.mpr hne
    rw [List.length_cons]
    omega

theorem intercalate_printAll (separator : List Char) (v : Value) (vs : List Value) :
    separator.intercalate (Value.printAll (v :: vs))
      = v.print ++ vs.flatMap fun v => separator ++ v.print := by
  induction vs generalizing v with
  | nil => simp [Value.printAll]
  | cons w vs ih =>
    rw [Value.printAll, Value.printAll, List.intercalate_cons_cons, ← Value.printAll, ih,
      List.flatMap_cons, List.append_assoc, List.append_assoc]

theorem print_collapse (separator : Separator) (v : Value) (vs : List Value) :
    (collapse separator ⟨v, vs⟩).print =
      v.print ++ vs.flatMap fun v => separator.print ++ v.print := by
  cases vs with
  | nil => exact (List.append_nil _).symm
  | cons w vs => exact intercalate_printAll _ _ _

theorem opensQuoted_append {cs : List Char} (h : opensQuoted cs = true) (k : List Char) :
    opensQuoted (cs ++ k) = true := by
  cases cs with
  | nil => cases h
  | cons c cs => exact h

theorem opensQuoted_dropWhile {cs : List Char} (h : opensQuoted cs = true) :
    opensQuoted (cs.dropWhile isBlank) = true := by
  cases cs with
  | nil => cases h
  | cons c cs =>
    rw [List.dropWhile_cons, if_neg (by simp [isBlank_of_isQuotationMark h])]
    exact h

/-! ## What is read can be written -/

variable {lineComments : Bool} {c rest : Cursor} {v : Value}

/-- What is read can be written, and is written with a quotation mark first where one is ahead. -/
def ReadsWritten (rank : Nat) (c : Cursor) (v : Value) (_ : Cursor) : Prop :=
  v.Written rank ∧ (opensQuoted (c.ahead.dropWhile isBlank) = true → opensQuoted v.print = true)

/-- Where a quotation mark is ahead behind blanks, trivia is blanks. -/
theorem opensQuoted_of_triviaRun {w k : List Char} (hrun : TriviaRun lineComments w k)
    (h : opensQuoted ((w ++ k).dropWhile isBlank) = true) :
    opensQuoted (k.dropWhile isBlank) = true := by
  induction hrun with
  | nil => exact h
  | @cons u w k hpiece _ ih =>
    rw [List.append_assoc] at h
    generalize w ++ k = l at hpiece h ih
    cases hpiece with
    | blank hb =>
      rw [List.cons_append, List.dropWhile_cons, if_pos hb] at h
      exact ih h
    | block _ => cases h
    | line _ _ => cases h
    | lastLine _ _ => cases h

theorem SkipsRun.opensQuoted {mid : Cursor} (hskip : SkipsRun lineComments c mid)
    (h : Grammar.opensQuoted (c.ahead.dropWhile isBlank) = true) :
    Grammar.opensQuoted (mid.ahead.dropWhile isBlank) = true := by
  obtain ⟨w, hreads, hrun⟩ := hskip
  rw [hreads.ahead] at h
  exact opensQuoted_of_triviaRun hrun h

/-- No quotation mark is ahead where another character is read. -/
theorem ReadsSymbol.not_opensQuoted {x : Char} (hx : isBlank x = false ∧ isQuotationMark x = false)
    (hsymbol : ReadsSymbol lineComments [x] c rest) :
    opensQuoted (c.ahead.dropWhile isBlank) = false := by
  obtain ⟨mid, hskip, hreads⟩ := hsymbol
  refine Bool.eq_false_iff.mpr fun h => ?_
  have hquote := hskip.opensQuoted h
  rw [hreads.ahead, List.cons_append, List.dropWhile_cons, if_neg (by simp [hx.1])] at hquote
  simp only [opensQuoted, hx.2] at hquote
  cases hquote

/-- A name is no number where it is read as a name. -/
theorem numberLength?_of_reads {cs : List Char} (h : numberLength? c.ahead = none)
    (hname : c.Reads cs rest) (his : IsName cs) : numberLength? cs = none := by
  rw [hname.ahead] at h
  have htail := numberLength?_tail (t := cs) (k := rest.ahead) (l := []) his.ne_nil
    numberStop_nil fun count hcount => by rw [h] at hcount; cases hcount
  rw [List.append_nil, h] at htail
  exact htail

theorem ReadsNumber.written (hc : c.Within) (h : ReadsNumber c v rest) (rank : Nat) :
    v.Written rank := by
  cases h with
  | plain hvalue htext =>
    rw [Value.Written, hvalue.chars_next hc]
    exact ⟨htext, by simp⟩
  | withUnit hvalue hunit hne htext =>
    have hmid := hvalue.within hc
    rw [Value.Written, hvalue.chars_next hc, Option.map_some, Option.getD_some,
      hunit.chars_next hmid]
    refine ⟨htext, fun u hu => ?_⟩
    cases hu
    rw [hunit.chars_next hmid]
    exact ⟨hne, Cursor.hasLength_next _ _⟩

theorem ReadsString.written (hc : c.Within) (h : ReadsString c v rest) (rank : Nat) :
    v.Written rank := by
  have htext := h.text hc
  cases h with
  | plain _ _ _ _ _ => rwa [Value.Written]
  | interpolated _ _ _ _ _ _ _ => rwa [Value.Written]

/-- The arguments of a call can be written, and the first of them as it stands. -/
theorem ReadsArguments.written {vs : List Value}
    (h : ReadsArguments lineComments (ReadsWritten 2) c vs rest) :
    Value.AllWritten 2 vs ∧ (opensQuoted (c.ahead.dropWhile isBlank) = true →
      opensQuoted (Value.argumentsText vs) = true) := by
  cases h with
  | none hclose =>
    refine ⟨trivial, fun hquote => ?_⟩
    rw [hclose.not_opensQuoted (by decide)] at hquote
    cases hquote
  | some hfirst hothers _ =>
    have hall := hothers.forall (p := fun v => v.Written 2)
      fun _ _ _ ⟨_, _, hwritten, _⟩ => hwritten
    refine ⟨⟨hfirst.1, Value.allWritten_iff.mpr hall⟩, fun hquote => ?_⟩
    rw [Value.argumentsText, intercalate_printAll]
    exact opensQuoted_append (hfirst.2 hquote) _

theorem ReadsCall.written (hc : c.Within) (hnumber : numberLength? c.ahead = none)
    (hurl : Rule.MissesAt url c) (h : ReadsCall lineComments (ReadsWritten 2) c v rest)
    (rank : Nat) : v.Written rank := by
  cases h with
  | @intro named opened stop cs found hname hopen his hfound _ =>
    rw [Value.Written, hname.chars_next hc]
    refine ⟨⟨his, numberLength?_of_reads hnumber hname his⟩, fun hcalls => ?_, hfound.written.1⟩
    have hahead : c.ahead = cs ++ '(' :: opened.ahead := by rw [hname.ahead, hopen.ahead]; rfl
    exact hfound.written.2 (opensQuoted_of_url_misses hc hcalls hahead hurl)

theorem ReadsPrimitive.written (hc : c.Within)
    (h : ReadsPrimitive lineComments (ReadsWritten 2) c v rest) : ReadsWritten 0 c v rest := by
  refine ⟨?_, fun hquote => ?_⟩
  · cases h with
    | ofString h => exact h.written hc 0
    | ofColor hmark hhex his =>
      rw [Value.Written, hhex.chars_next (hmark.within hc)]
      exact his
    | ofNumber h => exact h.written hc 0
    | ofUrl h =>
      cases h with
      | intro _ hopen haddress _ _ _ _ his =>
        rw [Value.Written, haddress.chars_next (hopen.within hc)]
        exact his
    | ofCall hnumber hurl h => exact h.written hc hnumber hurl 0
    | ofVariable hmark hname his =>
      rw [Value.Written, hname.chars_next (hmark.within hc)]
      exact his
    | ofProperty hmark hname his =>
      rw [Value.Written, hname.chars_next (hmark.within hc)]
      exact his
    | ofIdentifier hnumber hname his =>
      rw [Value.Written, hname.chars_next hc]
      exact ⟨his, numberLength?_of_reads hnumber hname his⟩
  · obtain ⟨x, l, hahead, hblank, hprint⟩ := h.head
    rw [hahead, List.dropWhile_cons, if_neg (by simp [hblank])] at hquote
    exact hprint hquote

theorem ReadsToken.written
    (h : ReadsToken lineComments (ReadsPrimitive lineComments (ReadsWritten 2)) c v rest) :
    ReadsWritten 0 c v rest := by
  obtain ⟨mid, hskip, hmid, hprimitive⟩ := h
  have hwritten := hprimitive.written hmid
  exact ⟨hwritten.1, fun hquote => hwritten.2 (hskip.opensQuoted hquote)⟩

/-- A list of values of the rank below is a value of the rank of its separator. -/
theorem ReadsList.written (separator : Separator) {Q : Cursor → Value → Cursor → Prop}
    (hQ : ∀ c v rest, Q c v rest → ReadsWritten (separator.rank - 1) c v rest)
    (h : ReadsList lineComments separator Q c v rest) : ReadsWritten separator.rank c v rest := by
  obtain ⟨⟨first, others⟩, mid, rfl, hfirst, hothers⟩ := h
  have hwritten := hQ c first mid hfirst
  have hall := hothers.forall (p := fun v => v.Written (separator.rank - 1))
    fun _ _ _ ⟨_, _, hvalue⟩ => (hQ _ _ _ hvalue).1
  refine ⟨written_collapse (List.forall_mem_cons.mpr ⟨hwritten.1, hall⟩), fun hquote => ?_⟩
  rw [print_collapse]
  exact opensQuoted_append (hwritten.2 hquote) _

theorem ReadsSpaceList.written (h : ReadsSpaceList lineComments (ReadsWritten 2) c v rest) :
    ReadsWritten 2 c v rest :=
  ReadsList.written .space (fun _ _ _ h => ReadsList.written .slash (fun _ _ _ h => h.written) h) h

variable {s : Settings}

/-- Every value that is read can be written. -/
theorem valueAt_written (levels : Nat) : (valueAt s levels).Ensures fun _ v _ => v.Written 3 := by
  have hread : (valueAt s levels).Ensures (ReadsValue s.lineComments (ReadsWritten 2)) :=
    valueAt_ensures (fun _ _ _ _ _ h => h.written) levels
  refine Rule.ensures_mono hread fun c v rest _ _ h => ?_
  exact (ReadsList.written .comma (fun _ _ _ h => h.written) h).1

end Grammar

/-! ## Lengths -/

mutual

theorem Value.Written.hasLengths : ∀ {rank : Nat} {v : Value}, v.Written rank →
    v.hasLengths = true
  | _, .number _ unit, h => by
    rw [Value.hasLengths]
    cases unit with
    | none => rfl
    | some u => exact (h.2 u rfl).2
  | _, .call _ arguments, h => by
    rw [Value.hasLengths]
    exact Value.AllWritten.haveLengths h.2.2
  | _, .list values _, h => by
    rw [Value.hasLengths]
    exact Value.AllWritten.haveLengths h.2.2
  | _, .string _ _, _ | _, .interpolated _ _ _, _ | _, .color _, _ | _, .identifier _, _
  | _, .variable _, _ | _, .property _, _ | _, .url _, _ | _, .ruleset _, _ => rfl

theorem Value.AllWritten.haveLengths : ∀ {rank : Nat} {vs : List Value},
    Value.AllWritten rank vs → Value.allHaveLengths vs = true
  | _, [], _ => rfl
  | _, v :: vs, h => by
    rw [Value.allHaveLengths, Value.Written.hasLengths h.1, Value.AllWritten.haveLengths h.2]
    rfl

end

end LessSyntax
