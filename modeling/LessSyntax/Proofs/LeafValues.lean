import LessSyntax.Proofs.Tiling
import LessSyntax.Proofs.TreeValues

/-!
# Colours, references and identifiers

Four kinds of values consist of a single text behind a mark: colours, references to variables and to
properties, and, without a mark, identifiers. Such a text is read as its value, with the place where
it stands.

What the texts are depends on the digits of Unicode. A colour takes any of them, and so does a
number, which is tried before an identifier: a name with a decimal digit first is read as none.

* `parseValue_leaf`: a mark and a text that can be written are read as the value.
* `isHexDigit_iff`, `Entry.parse_colors`: the digits of colours.
* `BeginsWithNumber`, `parseValue_name`: the names that are identifiers.
-/

namespace LessSyntax

open Grammar Rule

variable {s : Settings} {source : Source} {cs mark : List Char} {make : Text → Value}

/-! ## Values of one text -/

/-- What stands before the text of such a value when it is written. -/
inductive Leaf : List Char → (Text → Value) → Prop
  | color : Leaf ['#'] .color
  | variable : Leaf ['@'] .variable
  | property : Leaf ['$'] .property
  | identifier : Leaf [] .identifier

theorem Leaf.print (h : Leaf mark make) (t : Text) : (make t).print = mark ++ t.chars := by
  cases h <;> simp [Value.print]

theorem Leaf.leaves (h : Leaf mark make) (t : Text) : (make t).leaves = [t] := by
  cases h <;> simp [Value.leaves]

theorem Leaf.nesting (h : Leaf mark make) (t : Text) : (make t).nesting = 0 := by
  cases h <;> simp [Value.nesting]

theorem Leaf.of_same (h : Leaf mark make) {t : Text} {v : Value} (hsame : (make t).same v = true) :
    ∃ u, v = make u ∧ u.chars = t.chars := by
  cases h <;> cases v <;> simp only [Value.same, Bool.false_eq_true] at hsame <;>
    exact ⟨_, rfl, (Text.same_iff.mp hsame).symm⟩

theorem Leaf.length (h : Leaf mark make) : mark.length ≤ 1 := by
  cases h <;> simp

/-- The texts of a value lie in its source, one behind the other. -/
theorem parseValue_tiles {v : Value} (h : parseValue s source = .ok v) :
    ∃ stop, Tiles s.lineComments source.chars 0 v.leaves stop := by
  rw [parseValue_eq] at h
  obtain ⟨rest, -, hread, -⟩ := parse_matched h
  have hstart := Cursor.within_ofText source.chars
  exact ⟨_, ((valueAt_covers s s.maxDepth _ v rest hstart hread).2 hstart).tiles⟩

/-- A part that is all of a text but a mark, and does not hold the mark, stands behind it. -/
theorem start_of_part {cs : List Char} {start stop : Nat} (hmark : mark.length ≤ 1) (hne : cs ≠ [])
    (hapart : ∀ m ∈ mark, m ∉ cs) (hstop : stop ≤ (mark ++ cs).length)
    (h : (mark ++ cs).extract start stop = cs) :
    start = mark.length ∧ stop = mark.length + cs.length := by
  have hlength : stop - start = cs.length := by
    have hcut := congrArg List.length h
    simp only [List.extract_eq_take_drop, List.length_take, List.length_drop] at hcut
    omega
  have hpos := List.length_pos_iff.mpr hne
  rw [List.length_append] at hstop
  suffices hstart : mark.length ≤ start by omega
  rcases mark with _ | ⟨m, others⟩
  · exact Nat.zero_le _
  · -- from the start on, the part would begin with the mark
    refine Nat.le_trans hmark (Nat.one_le_iff_ne_zero.mpr fun hzero => ?_)
    obtain ⟨n, hn⟩ : ∃ n, stop = n + 1 := ⟨stop - 1, by omega⟩
    subst hzero hn
    refine hapart m List.mem_cons_self ?_
    rw [← h]
    simp

theorem span_of_tiles {lineComments : Bool} {t : Text} {stop : Nat} (hmark : mark.length ≤ 1)
    (hne : t.chars ≠ []) (hapart : ∀ m ∈ mark, m ∉ t.chars)
    (h : Tiles lineComments (mark ++ t.chars) 0 [t] stop) :
    t = ⟨t.chars, some ⟨mark.length, mark.length + t.chars.length⟩⟩ := by
  generalize hsource : mark ++ t.chars = source at h
  cases h with
  | @cons _ start stop _ _ _ _ hend _ _ =>
    have hchars : (Text.borrowed source start stop).chars = source.extract start stop := by
      simp [Text.borrowed]
    rw [← hsource] at hend
    obtain ⟨hstart, hstop⟩ := start_of_part hmark hne hapart hend (by rw [hsource, ← hchars])
    rw [← Int.natCast_add, ← hstop, ← hstart]
    rfl

/-- A mark and a text that can be written behind it are read as the value of that text. -/
theorem parseValue_leaf (s : Settings) (url : Option String) (cs : List Char)
    (hleaf : Leaf mark make) (hwritten : (make (Text.owned cs)).Written 3) (hne : cs ≠ [])
    (hapart : ∀ m ∈ mark, m ∉ cs) :
    parseValue s ⟨mark ++ cs, url⟩
      = .ok (make ⟨cs, some ⟨mark.length, mark.length + cs.length⟩⟩) := by
  obtain ⟨v, hread, hsame⟩ := parseValue_of_written hwritten
    (by rw [hleaf.nesting]; exact Nat.zero_le _) url
  rw [hleaf.print] at hread
  obtain ⟨t, rfl, hchars⟩ := hleaf.of_same hsame
  change parseValue s ⟨mark ++ cs, url⟩ = _ at hread
  obtain rfl : t.chars = cs := hchars
  obtain ⟨stop, htiles⟩ := parseValue_tiles hread
  rw [hleaf.leaves] at htiles
  rw [← span_of_tiles hleaf.length hne hapart htiles]
  exact hread

/-! ## Colours -/

/-- The decimal digits of ASCII. -/
def arabicDigits : List Char := ['0', '1', '2', '3', '4', '5', '6', '7', '8', '9']

/-- The hexadecimal digits. -/
def colorDigits : List Char := arabicDigits ++ "abcdefABCDEF".toList

/-- Up to the end of ASCII, a class of digits holds the ten Arabic ones at most. -/
theorem mem_arabicDigits {runs : Unicode.Runs}
    (hruns : ∀ code < 0x80, runs.contains code = true → code ∈ arabicDigits.map Char.toNat)
    {c : Char} (hc : c.toNat < 0x80) (h : runs.contains c.toNat = true) : c ∈ arabicDigits := by
  obtain ⟨d, hd, hcode⟩ := List.mem_map.mp (hruns c.toNat hc h)
  obtain rfl : d = c := Char.toNat_inj.mp hcode
  exact hd

theorem isDigit_ascii {c : Char} (hc : c.toNat < 0x80) (h : Unicode.isDigit c = true) :
    c ∈ arabicDigits :=
  mem_arabicDigits (by decide) hc h

theorem isDecimal_ascii {c : Char} (hc : c.toNat < 0x80) (h : Unicode.isDecimal c = true) :
    c ∈ arabicDigits :=
  mem_arabicDigits (by decide) hc h

theorem isHexDigit_of_mem {c : Char} (h : c ∈ colorDigits) : isHexDigit c = true := by
  have hdigits : ∀ d ∈ arabicDigits, Unicode.isDigit d = true := forall_mem_of_all rfl
  rw [isHexDigit, Bool.or_eq_true, List.contains_iff_mem]
  exact (List.mem_append.mp h).imp_left (hdigits c)

/-- A digit of a colour is hexadecimal, or a digit of Unicode beyond ASCII. -/
theorem isHexDigit_iff {c : Char} :
    isHexDigit c = true ↔ c ∈ colorDigits ∨ 0x80 ≤ c.toNat ∧ Unicode.isDigit c = true := by
  refine ⟨fun h => ?_, fun h => h.elim isHexDigit_of_mem fun h => by simp [isHexDigit, h.2]⟩
  rw [isHexDigit, Bool.or_eq_true, List.contains_iff_mem] at h
  rcases h with h | h
  · by_cases hc : c.toNat < 0x80
    · exact .inl (List.mem_append_left _ (isDigit_ascii hc h))
    · exact .inr ⟨Nat.le_of_not_lt hc, h⟩
  · exact .inl (List.mem_append_right _ h)

/-- **The digits of colours.** A colour in a tree that is read has three, four, six or eight digits,
each of them hexadecimal or a digit of Unicode beyond ASCII. Conversely these are read as the digits
of a colour. -/
theorem Entry.parse_colors (s : Settings) :
    (∀ (entry : Entry) (source : Source) (t : Tree), entry.parse s source = .ok t →
      ∀ hex, Value.color hex ∈ t.values → hex.chars.length ∈ [3, 4, 6, 8] ∧
        ∀ c ∈ hex.chars, c ∈ colorDigits ∨ 0x80 ≤ c.toNat ∧ Unicode.isDigit c = true) ∧
    ∀ (cs : List Char) (url : Option String), cs.length ∈ [3, 4, 6, 8] →
      (∀ c ∈ cs, c ∈ colorDigits ∨ 0x80 ≤ c.toNat ∧ Unicode.isDigit c = true) →
      parseValue s ⟨'#' :: cs, url⟩ = .ok (.color ⟨cs, some ⟨1, 1 + cs.length⟩⟩) := by
  constructor
  · intro entry source t h hex hmem
    rcases entry.parse_values h _ hmem with ⟨rank, hhex⟩ | ⟨block, hblock⟩
    · have his : IsHex hex.chars := hhex
      exact ⟨his.length, fun c hc => isHexDigit_iff.mp (his.digits c hc)⟩
    · cases hblock
  · intro cs url hlength hdigits
    have his : IsHex cs := ⟨hlength, fun c hc => isHexDigit_iff.mpr (hdigits c hc)⟩
    have hne : cs ≠ [] := by
      rintro rfl
      simp at hlength
    have hapart : ∀ m ∈ ['#'], m ∉ cs := by
      rintro m hm hmem
      obtain rfl := List.mem_singleton.mp hm
      exact absurd (his.digits _ hmem) (by decide)
    have hread := parseValue_leaf s url cs .color his hne hapart
    rwa [List.singleton_append, List.length_singleton] at hread

/-- A colour inside a call, and one by itself. -/
theorem colors_in_call :
    ∃ t hex,
      Entry.item.parse ⟨1, true⟩ ⟨['a', ':', 'f', '(', '#', '0', 'a', 'F', ')'], none⟩ = .ok t ∧
      Value.color hex ∈ t.values ∧ hex.chars.length ∈ [3, 4, 6, 8] ∧
      (∀ c ∈ hex.chars, c ∈ colorDigits ∨ 0x80 ≤ c.toNat ∧ Unicode.isDigit c = true) ∧
      parseValue ⟨1, true⟩ ⟨['#', 'F', 'F', 'F'], none⟩
        = .ok (.color ⟨['F', 'F', 'F'], some ⟨1, 4⟩⟩) := by
  obtain ⟨hread, hwritten⟩ := Entry.parse_colors ⟨1, true⟩
  have ht : Entry.item.parse ⟨1, true⟩ ⟨['a', ':', 'f', '(', '#', '0', 'a', 'F', ')'], none⟩
      = .ok (.item (.declaration ⟨['a'], some ⟨0, 1⟩⟩
        (.call ⟨['f'], some ⟨2, 3⟩⟩ [.color ⟨['0', 'a', 'F'], some ⟨5, 8⟩⟩]) false)) := rfl
  have hmem : Value.color ⟨['0', 'a', 'F'], some ⟨5, 8⟩⟩ ∈ (Tree.item (.declaration
      ⟨['a'], some ⟨0, 1⟩⟩ (.call ⟨['f'], some ⟨2, 3⟩⟩
        [.color ⟨['0', 'a', 'F'], some ⟨5, 8⟩⟩]) false)).values := by
    simp [Tree.values, Item.values, Value.values, Value.valuesAll]
  obtain ⟨hlength, hdigits⟩ := hread .item _ _ ht _ hmem
  exact ⟨_, _, ht, hmem, hlength, hdigits,
    hwritten ['F', 'F', 'F'] none (by decide) (forall_mem_of_all rfl)⟩

/-- Not every digit of a colour is hexadecimal. -/
theorem color_beyond_ascii :
    ¬ ∀ (entry : Entry) (s : Settings) (source : Source) (t : Tree), entry.parse s source = .ok t →
      ∀ hex, Value.color hex ∈ t.values → hex.chars.length ∈ [3, 4, 6, 8] ∧
        ∀ c ∈ hex.chars, c ∈ colorDigits := by
  intro h
  have hread : Entry.value.parse ⟨1, true⟩ ⟨['#', '\u0661', '\u0662', '\u0663'], none⟩
      = .ok (.value (.color ⟨['\u0661', '\u0662', '\u0663'], some ⟨1, 4⟩⟩)) := rfl
  have hdigits := (h .value _ _ _ hread _ (Value.mem_values_self _)).2
  exact absurd (hdigits '\u0661' List.mem_cons_self) (by decide)

/-! ## Names -/

/-- A decimal digit stands first, or behind one hyphen. -/
def BeginsWithNumber (cs : List Char) : Prop :=
  ∃ d others, Unicode.isDecimal d = true ∧ (cs = d :: others ∨ cs = '-' :: d :: others)

theorem beginsWithNumber_hyphen {cs : List Char} :
    BeginsWithNumber ('-' :: cs) ↔ ∃ d ∈ cs.head?, Unicode.isDecimal d = true := by
  constructor
  · rintro ⟨d, others, hd, h | h⟩
    · exact absurd hd (by rw [← (List.cons.inj h).1]; decide)
    · exact ⟨d, by rw [(List.cons.inj h).2]; rfl, hd⟩
  · rintro ⟨d, hhead, hd⟩
    obtain ⟨others, rfl⟩ := List.head?_eq_some_iff.mp hhead
    exact ⟨d, others, hd, .inr rfl⟩

theorem beginsWithNumber_cons {c : Char} {cs : List Char} (hc : c ≠ '-') :
    BeginsWithNumber (c :: cs) ↔ Unicode.isDecimal c = true := by
  constructor
  · rintro ⟨d, others, hd, h | h⟩
    · rwa [(List.cons.inj h).1]
    · exact absurd (List.cons.inj h).1 hc
  · exact fun h => ⟨c, cs, h, .inl rfl⟩

/-- Where no point stands, a number has a digit before its fraction. -/
theorem mantissaLength_eq_zero {cs : List Char} (h : ∀ c ∈ cs.head?, c ≠ '.') :
    mantissaLength cs = 0 ↔ ∀ d ∈ cs.head?, Unicode.isDecimal d = false := by
  cases cs with
  | nil => simp [mantissaLength, digitsLength, fractionLength]
  | cons c cs =>
    have hpoint : (c == '.') = false := beq_eq_false_iff_ne.mpr (h c rfl)
    cases hc : Unicode.isDecimal c <;>
      simp [mantissaLength, digitsLength, fractionLength, hc, hpoint]

theorem numberLength?_eq_none {cs : List Char} :
    numberLength? cs = none ↔ mantissaLength (cs.drop (signLength cs)) = 0 := by
  unfold numberLength?
  dsimp only
  split <;> simp_all

/-- A name begins with a number exactly if a decimal digit stands first or behind a hyphen. -/
theorem numberLength?_isName {cs : List Char} (h : IsName cs) :
    numberLength? cs = none ↔ ¬ BeginsWithNumber cs := by
  have hpoint : ∀ c ∈ cs, c ≠ '.' := fun c hc => ne_of_class (h.all c hc) (by decide)
  have hplus : ∀ c ∈ cs, c ≠ '+' := fun c hc => ne_of_class (h.all c hc) (by decide)
  obtain ⟨x, r, rfl, -⟩ := h.cons
  rw [numberLength?_eq_none]
  by_cases hx : x = '-'
  · subst hx
    have hsign : signLength ('-' :: r) = 1 := rfl
    have hbehind : ∀ c ∈ r.head?, c ≠ '.' := fun c hc =>
      hpoint c (List.mem_cons_of_mem _ (List.mem_of_mem_head? hc))
    rw [hsign, List.drop_succ_cons, List.drop_zero, beginsWithNumber_hyphen,
      mantissaLength_eq_zero hbehind]
    simp
  · have hsign : signLength (x :: r) = 0 := by
      simp [signLength, Decimal.isSign, hx, hplus x List.mem_cons_self]
    rw [hsign, List.drop_zero, beginsWithNumber_cons hx,
      mantissaLength_eq_zero (head_cons (hpoint x List.mem_cons_self))]
    simp

/-- Up to the end of ASCII no name begins with a number. -/
theorem not_beginsWithNumber {cs : List Char} (h : IsName cs) (hascii : ∀ c ∈ cs, c.toNat < 0x80) :
    ¬ BeginsWithNumber cs := by
  rintro ⟨d, others, hd, hnumber⟩
  have hmem : d ∈ cs := by rcases hnumber with rfl | rfl <;> simp
  have hdigit := isDecimal_ascii (hascii d hmem) hd
  have hdigits : ∀ x ∈ arabicDigits, isNameStart x = false := apart_of_all rfl
  have hstart := hdigits d hdigit
  have hhyphen : d ≠ '-' := by
    rintro rfl
    exact absurd hdigit (by decide)
  -- the digit would be the first character behind the hyphens of the name
  obtain ⟨count, x, r, hcs, -, hx, -⟩ := isName_iff.mp h
  have hne : d ≠ x := by
    rintro rfl
    rw [hstart] at hx
    cases hx
  rcases hnumber with rfl | rfl
  · cases count with
    | zero => exact hne (List.cons.inj hcs).1
    | succ count => exact hhyphen (List.cons.inj hcs).1
  · rcases count with _ | _ | count
    · rw [← (List.cons.inj hcs).1, isNameStart_hyphen] at hx
      cases hx
    · exact hne (List.cons.inj (List.cons.inj hcs).2).1
    · exact hhyphen (List.cons.inj (List.cons.inj hcs).2).1

/-- **Names as values.** Behind a mark, every name is the reference to a variable or to a property.
By itself it is an identifier, except where it begins with a number. -/
theorem parseValue_name (s : Settings) (url : Option String) {cs : List Char} (h : IsName cs) :
    parseValue s ⟨'@' :: cs, url⟩ = .ok (.variable ⟨cs, some ⟨1, 1 + cs.length⟩⟩) ∧
    parseValue s ⟨'$' :: cs, url⟩ = .ok (.property ⟨cs, some ⟨1, 1 + cs.length⟩⟩) ∧
    (parseValue s ⟨cs, url⟩ = .ok (.identifier ⟨cs, some ⟨0, cs.length⟩⟩) ↔
      ¬ BeginsWithNumber cs) := by
  have hapart : ∀ {x : Char}, isNameChar x = false → ∀ m ∈ [x], m ∉ cs := by
    intro x hx m hm hmem
    obtain rfl := List.mem_singleton.mp hm
    exact ne_of_class (h.all _ hmem) hx rfl
  refine ⟨?_, ?_, ?_, fun hnumber => ?_⟩
  · have hread := parseValue_leaf s url cs .variable h h.ne_nil (hapart (by decide))
    rwa [List.singleton_append, List.length_singleton] at hread
  · have hread := parseValue_leaf s url cs .property h h.ne_nil (hapart (by decide))
    rwa [List.singleton_append, List.length_singleton] at hread
  · -- an identifier that is read can be written, so that no number would be read in its place
    intro hread
    have hwritten : IsName cs ∧ numberLength? cs = none := parseValue_written hread
    exact (numberLength?_isName h).mp hwritten.2
  · have hread := parseValue_leaf s url cs .identifier
      ⟨h, (numberLength?_isName h).mpr hnumber⟩ h.ne_nil (by simp)
    rwa [List.nil_append, List.length_nil, Int.natCast_zero, Int.zero_add] at hread

/-- A name of one letter beyond ASCII. -/
theorem letter_values :
    IsName ['\u00e9'] ∧
    parseValue ⟨1, true⟩ ⟨['@', '\u00e9'], none⟩ = .ok (.variable ⟨['\u00e9'], some ⟨1, 2⟩⟩) ∧
    parseValue ⟨1, true⟩ ⟨['$', '\u00e9'], none⟩ = .ok (.property ⟨['\u00e9'], some ⟨1, 2⟩⟩) ∧
    parseValue ⟨1, true⟩ ⟨['\u00e9'], none⟩ = .ok (.identifier ⟨['\u00e9'], some ⟨0, 1⟩⟩) := by
  have his : IsName ['\u00e9'] := rfl
  obtain ⟨hvariable, hproperty, hidentifier⟩ := parseValue_name ⟨1, true⟩ none his
  refine ⟨his, hvariable, hproperty, hidentifier.mpr ?_⟩
  rw [beginsWithNumber_cons (by decide)]
  decide

/-- A digit beyond ASCII is a name, but no identifier. -/
theorem digit_no_identifier :
    ¬ ∀ (s : Settings) (url : Option String) (cs : List Char), IsName cs →
      parseValue s ⟨cs, url⟩ = .ok (.identifier ⟨cs, some ⟨0, cs.length⟩⟩) := by
  intro h
  have hread : parseValue ⟨1, true⟩ ⟨['\u0663'], none⟩
      = .ok (.number ⟨['\u0663'], some ⟨0, 1⟩⟩ none) := rfl
  have hname := h ⟨1, true⟩ none ['\u0663'] rfl
  rw [hread] at hname
  cases hname

end LessSyntax
