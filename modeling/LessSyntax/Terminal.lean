/-!
# Terminals

A code in a text for a terminal is an escape, a bracket, numbers with semicolons between them and
the letter `m`. Nothing is shown of it: it sets the colour of what follows. A *markup* puts codes
around a text that has the name of a colour in brackets before it.

* `stripCodes`: what is left of a text when its codes are left out.
* `KeepsText`: what is asked of a markup: it adds codes to a text and nothing else.
* `keepsText_markup`: colours by their red, green and blue parts do so.
-/

namespace LessSyntax.Terminal

def escape : Char := '\x1b'

/-! ## Codes -/

/-- The numbers of a code, with the semicolons between them, consist of these. -/
def isParameter (c : Char) : Bool := c.isDigit || c == ';'

/-- What stands behind the code that the text begins with. -/
def behindCode? : List Char → Option (List Char)
  | c :: '[' :: cs =>
    if c == escape then
      match cs.dropWhile isParameter with
      | 'm' :: rest => some rest
      | _ => none
    else none
  | _ => none

theorem length_behindCode? {cs rest : List Char} (h : behindCode? cs = some rest) :
    rest.length < cs.length := by
  unfold behindCode? at h
  split at h
  · rename_i c cs
    split at h
    · have hle := (List.dropWhile_sublist (l := cs) isParameter).length_le
      split at h
      · rename_i hdrop
        cases h
        rw [hdrop] at hle
        simp only [List.length_cons] at hle ⊢
        omega
      · cases h
    · cases h
  · cases h

/-- The text without its codes. -/
def stripCodes (cs : List Char) : List Char :=
  match cs with
  | [] => []
  | c :: others =>
    match _ : behindCode? (c :: others) with
    | some rest => stripCodes rest
    | none => c :: stripCodes others
termination_by cs.length
decreasing_by
  · exact length_behindCode? ‹_›
  · exact Nat.lt_succ_self _

variable {cs rest : List Char} {c x : Char}

@[simp]
theorem stripCodes_nil : stripCodes [] = [] := by rw [stripCodes]

theorem stripCodes_of_behind (h : behindCode? cs = some rest) :
    stripCodes cs = stripCodes rest := by
  cases cs with
  | nil => cases h
  | cons c others =>
    rw [stripCodes]
    split
    · rename_i hbehind
      rw [h] at hbehind
      cases hbehind
      rfl
    · rename_i hnone
      rw [h] at hnone
      cases hnone

theorem stripCodes_of_none (h : behindCode? (c :: cs) = none) :
    stripCodes (c :: cs) = c :: stripCodes cs := by
  rw [stripCodes]
  split
  · rename_i hsome
    rw [h] at hsome
    cases hsome
  · rfl

theorem behindCode?_of_ne (hc : c ≠ escape) (cs : List Char) : behindCode? (c :: cs) = none := by
  unfold behindCode?
  split
  · rename_i c' others heq
    cases heq
    exact if_neg (by simpa using hc)
  · rfl

/-- A text without an escape is kept, whatever follows it. -/
theorem stripCodes_append (h : escape ∉ cs) (rest : List Char) :
    stripCodes (cs ++ rest) = cs ++ stripCodes rest := by
  induction cs with
  | nil => rfl
  | cons c cs ih =>
    rw [List.mem_cons, not_or] at h
    rw [List.cons_append, stripCodes_of_none (behindCode?_of_ne (Ne.symm h.1) _), ih h.2,
      List.cons_append]

theorem stripCodes_eq_self (h : escape ∉ cs) : stripCodes cs = cs := by
  simpa using stripCodes_append h []

/-- No code has this character in it. -/
def Parts (x : Char) : Prop := x ≠ escape ∧ x ≠ '[' ∧ isParameter x = false ∧ x ≠ 'm'

theorem behindCode?_append_cons (hx : Parts x) (hne : cs ≠ []) (rest : List Char) :
    behindCode? (cs ++ x :: rest) = (behindCode? cs).map (· ++ x :: rest) := by
  obtain ⟨c, others, rfl⟩ := List.exists_cons_of_ne_nil hne
  by_cases hc : c = escape
  · subst hc
    cases others with
    | nil =>
      have hbracket := hx.2.1
      simp [behindCode?, hbracket]
    | cons d others =>
      by_cases hd : d = '['
      · subst hd
        simp only [behindCode?, List.cons_append, BEq.rfl, if_true, List.dropWhile_append]
        cases others.dropWhile isParameter with
        | nil =>
          simp [hx.2.2.1, hx.2.2.2]
        | cons e more =>
          by_cases he : e = 'm' <;> simp [he]
      · simp [behindCode?, hd]
  · rw [List.cons_append, behindCode?_of_ne hc, behindCode?_of_ne hc, Option.map_none]

/-- A character that is in no code parts the text: no code goes across it. -/
theorem stripCodes_append_cons (hx : Parts x) (cs rest : List Char) :
    stripCodes (cs ++ x :: rest) = stripCodes cs ++ x :: stripCodes rest := by
  induction cs using stripCodes.induct with
  | case1 =>
    rw [List.nil_append, stripCodes_nil, List.nil_append]
    exact stripCodes_of_none (behindCode?_of_ne hx.1 rest)
  | case2 c others behind hbehind ih =>
    have happend := behindCode?_append_cons hx (List.cons_ne_nil c others) rest
    rw [hbehind, Option.map_some] at happend
    rw [stripCodes_of_behind happend, stripCodes_of_behind hbehind, ih]
  | case3 c others hnone ih =>
    have happend := behindCode?_append_cons hx (List.cons_ne_nil c others) rest
    rw [hnone, Option.map_none, List.cons_append] at happend
    rw [List.cons_append, stripCodes_of_none happend, stripCodes_of_none hnone, ih,
      List.cons_append]

/-- A character that is in no code is still there without the codes. -/
theorem mem_stripCodes (hx : Parts x) (h : x ∈ cs) : x ∈ stripCodes cs := by
  obtain ⟨before, after, rfl⟩ := List.append_of_mem h
  rw [stripCodes_append_cons hx]
  exact List.mem_append_cons_self

/-! ## Markup -/

/-- A text with the name of a colour in brackets before it. -/
def tagged (colour text : String) : String := "[" ++ colour ++ "]" ++ text

/-- Nothing but words and a few signs. -/
def IsPlain (text : String) : Prop :=
  ∀ c ∈ text.toList, c.isAlphanum = true ∨ c ∈ [' ', '-', '>', '|', '^']

/-- A plain text behind the name of a colour is shown as it is: all that is added to it are
codes. -/
structure KeepsText (markup : String → String) : Prop where
  stripCodes_tagged (colour : String) (hcolour : colour ∈ ["red", "blue"]) {text : String}
    (htext : IsPlain text) : stripCodes (markup (tagged colour text)).toList = text.toList

/-- What is in no code and not in the text is not put there by a markup. -/
theorem KeepsText.not_mem {markup : String → String} (hmarkup : KeepsText markup) {colour : String}
    (hcolour : colour ∈ ["red", "blue"]) {text : String} (htext : IsPlain text) (hx : Parts x)
    (hnot : x ∉ text.toList) : x ∉ (markup (tagged colour text)).toList := fun hmem =>
  hnot (hmarkup.stripCodes_tagged colour hcolour htext ▸ mem_stripCodes hx hmem)

/-- The colours with their red, green and blue parts as the numbers of a code. -/
def colours : List (String × String) := [("red", "38;2;255;0;0"), ("blue", "38;2;0;0;255")]

/-- The number of the code that ends a colour. -/
def reset : String := "0"

def code (numbers : String) : String := "\x1b[" ++ numbers ++ "m"

/-- Puts codes around a text that has the name of a colour before it. -/
def markup (text : String) : String :=
  match text.toList with
  | '[' :: cs =>
    match colours.lookup (String.ofList (cs.takeWhile (· != ']'))) with
    | some numbers =>
      code numbers ++ String.ofList ((cs.dropWhile (· != ']')).drop 1) ++ code reset
    | none => text
  | _ => text

theorem IsPlain.escape_not_mem {text : String} (h : IsPlain text) : escape ∉ text.toList :=
  fun hmem => absurd (h _ hmem) (by decide)

theorem stripCodes_code {numbers : String} (h : ∀ c ∈ numbers.toList, isParameter c = true)
    (rest : List Char) : stripCodes ((code numbers).toList ++ rest) = stripCodes rest := by
  refine stripCodes_of_behind ?_
  have hdrop : (numbers.toList ++ 'm' :: rest).dropWhile isParameter = 'm' :: rest := by
    rw [List.dropWhile_append_of_pos h]
    rfl
  simp [code, behindCode?, escape, hdrop]

theorem markup_tagged {colour numbers : String} (hcolour : colours.lookup colour = some numbers)
    (hname : ∀ c ∈ colour.toList, (c != ']') = true) (text : String) :
    markup (tagged colour text) = code numbers ++ text ++ code reset := by
  have hchars : (tagged colour text).toList = '[' :: (colour.toList ++ ']' :: text.toList) := by
    simp [tagged]
  simp [markup, hchars, List.takeWhile_append_of_pos hname, List.dropWhile_append_of_pos hname,
    hcolour]

/-- Colours by their parts keep a text. -/
theorem keepsText_markup : KeepsText markup where
  stripCodes_tagged colour hcolour text htext := by
    obtain ⟨numbers, hlookup, hnumbers, hname⟩ : ∃ numbers, colours.lookup colour = some numbers ∧
        (∀ c ∈ numbers.toList, isParameter c = true) ∧
        ∀ c ∈ colour.toList, (c != ']') = true := by
      simp only [List.mem_cons, List.not_mem_nil, or_false] at hcolour
      rcases hcolour with rfl | rfl
      · exact ⟨_, rfl, by simp [isParameter], by simp⟩
      · exact ⟨_, rfl, by simp [isParameter], by simp⟩
    have hreset : stripCodes (code reset).toList = [] := by
      have hnumber : ∀ c ∈ reset.toList, isParameter c = true := by simp [reset, isParameter]
      simpa using stripCodes_code hnumber []
    rw [markup_tagged hlookup hname, String.toList_append, String.toList_append, List.append_assoc,
      stripCodes_code hnumbers, stripCodes_append htext.escape_not_mem, hreset, List.append_nil]

end LessSyntax.Terminal
