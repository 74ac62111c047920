import LessSyntax.Grammar.Url
import LessSyntax.Proofs.Lexeme.Name

/-!
# Addresses in their surroundings

* `url_ensures`: what is read as an address.
* `accepts_address`: what may stand in the parentheses, whatever follows them.
* `accepts_url`: an address that is written is read again.
* `url_refuses_name`: a name is no address, unless it is the one that calls for an address and an
  opening parenthesis stands behind it without a quotation mark.
-/

namespace LessSyntax.Grammar

open Rule

variable {t k : List Char}

/-! ## Letters in either case -/

theorem toLower_eq {c d : Char} (h : c.toLower = d) :
    c = d ∨ 65 ≤ c.toNat ∧ c.toNat ≤ 90 ∧ d.toNat = c.toNat + 32 := by
  by_cases hupper : 65 ≤ c.toNat ∧ c.toNat ≤ 90
  · right
    refine ⟨hupper.1, hupper.2, ?_⟩
    have hcond : c.val ≥ 'A'.val ∧ c.val ≤ 'Z'.val := hupper
    have hlower : d.val = c.val + ('a'.val - 'A'.val) := by
      rw [← h]
      exact congrArg Char.val (dif_pos hcond)
    show d.val.toNat = c.val.toNat + 32
    rw [hlower]
    have hsmall : c.val.toNat ≤ 90 := hupper.2
    rw [UInt32.toNat_add]
    show (c.val.toNat + 32) % 2 ^ 32 = c.val.toNat + 32
    omega
  · left
    have hcond : ¬ (c.val ≥ 'A'.val ∧ c.val ≤ 'Z'.val) := hupper
    exact (dif_neg hcond).symm.trans h

theorem isNameChar_of_upper {c : Char} (h : 65 ≤ c.toNat ∧ c.toNat ≤ 90) : isNameChar c = true := by
  apply isNameChar_of_isNameStart
  have hletter : Unicode.isLetter c = true := by
    unfold Unicode.isLetter Unicode.letterRuns Unicode.Runs.contains
    rw [Unicode.Runs.find?, if_neg (by omega), if_pos (by omega)]
    rfl
  rw [isNameStart, hletter]
  rfl

theorem isNameChar_of_toLower {c d : Char} (h : c.toLower = d) (hd : isNameChar d = true) :
    isNameChar c = true := by
  rcases toLower_eq h with rfl | ⟨hlow, hhigh, -⟩
  · exact hd
  · exact isNameChar_of_upper ⟨hlow, hhigh⟩

/-- The name that calls for an address, in either case. -/
def CallsUrl (cs : List Char) : Prop := isLowered ['u', 'r', 'l'] cs = true

/-- What an address begins with is a name and an opening parenthesis. -/
theorem isLowered_url (h : isLowered ['u', 'r', 'l', '('] (k.take 4) = true) :
    ∃ cs l, k = cs ++ '(' :: l ∧ CallsUrl cs ∧ ∀ c ∈ cs, isNameChar c = true := by
  rw [isLowered, beq_iff_eq] at h
  match k, h with
  | [], h | [_], h | [_, _], h | [_, _, _], h => simp at h
  | a :: b :: c :: d :: l, h =>
    simp only [List.take_succ_cons, List.take_zero, List.map_cons, List.map_nil, List.cons.injEq,
      and_true] at h
    obtain ⟨ha, hb, hc, hd⟩ := h
    have hparen : d = '(' := by
      rcases toLower_eq hd with hd | ⟨hlow, -, hd⟩
      · exact hd
      · exact absurd hd (by simp only [Char.reduceToNat]; omega)
    refine ⟨[a, b, c], l, by rw [hparen]; rfl, ?_, ?_⟩
    · simp only [CallsUrl, isLowered, List.map_cons, List.map_nil, ha, hb, hc, beq_self_eq_true]
    · intro x hx
      simp only [List.mem_cons, List.not_mem_nil, or_false] at hx
      rcases hx with rfl | rfl | rfl
      · exact isNameChar_of_toLower ha (by decide)
      · exact isNameChar_of_toLower hb (by decide)
      · exact isNameChar_of_toLower hc (by decide)

theorem CallsUrl.length {cs : List Char} (h : CallsUrl cs) : cs.length = 3 := by
  rw [← List.length_map Char.toLower, beq_iff_eq.mp h]
  rfl

theorem length_of_isLowered_url (h : isLowered ['u', 'r', 'l', '('] (k.take 4) = true) :
    4 ≤ k.length := by
  obtain ⟨callee, l, rfl, hcallee, -⟩ := isLowered_url h
  rw [List.length_append, hcallee.length, List.length_cons]
  omega

theorem CallsUrl.isLowered {cs : List Char} (h : CallsUrl cs) (k : List Char) :
    Grammar.isLowered ['u', 'r', 'l', '('] ((cs ++ '(' :: k).take 4) = true := by
  have hmap : cs.map Char.toLower = ['u', 'r', 'l'] := beq_iff_eq.mp h
  have htake : (cs ++ '(' :: k).take 4 = cs ++ ['('] := by
    rw [List.take_append, h.length, List.take_of_length_le (by rw [h.length]; omega)]
    rfl
  rw [Grammar.isLowered, htake, List.map_append, hmap]
  rfl

theorem CallsUrl.cons {cs : List Char} (h : CallsUrl cs) :
    ∃ x l, cs = x :: l ∧ isNameChar x = true := by
  have hmap : cs.map Char.toLower = ['u', 'r', 'l'] := beq_iff_eq.mp h
  cases cs with
  | nil => cases hmap
  | cons x l => exact ⟨x, l, rfl, isNameChar_of_toLower (List.cons.inj hmap).1 (by decide)⟩

/-! ## Addresses -/

/-- The text is an address without blanks around it. -/
structure IsAddress (t : List Char) : Prop where
  all : ∀ c ∈ t, isAddressChar c = true
  head : ∀ c ∈ t.head?, isBlank c = false
  last : trimBlanks t = t

theorem isBlank_of_isQuotationMark {c : Char} (h : isQuotationMark c = true) :
    isBlank c = false := by
  simp only [isQuotationMark, Bool.or_eq_true, beq_iff_eq] at h
  rcases h with rfl | rfl <;> decide

/-- Behind a text that is trimmed stand blanks only. -/
theorem trimBlanks_append (cs : List Char) :
    ∃ gap, cs = trimBlanks cs ++ gap ∧ ∀ b ∈ gap, isBlank b = true := by
  refine ⟨(cs.reverse.takeWhile isBlank).reverse, ?_, ?_⟩
  · rw [trimBlanks, ← List.reverse_append, List.takeWhile_append_dropWhile, List.reverse_reverse]
  · intro b hb
    exact List.all_eq_true.mp List.all_takeWhile b (List.mem_reverse.mp hb)

theorem trimBlanks_idem (cs : List Char) : trimBlanks (trimBlanks cs) = trimBlanks cs := by
  have hstop : ∀ l : List Char, (l.dropWhile isBlank).dropWhile isBlank = l.dropWhile isBlank := by
    intro l
    have hhead := List.head?_dropWhile_not isBlank l
    cases hl : l.dropWhile isBlank with
    | nil => rfl
    | cons c m =>
      rw [hl, List.head?_cons] at hhead
      rw [List.dropWhile_cons, if_neg (by simpa using hhead)]
  unfold trimBlanks
  rw [List.reverse_reverse, hstop]

theorem head?_of_beginning {cs ds : List Char} (h : cs <+: ds) : ∀ c ∈ cs.head?, c ∈ ds.head? := by
  obtain ⟨gap, rfl⟩ := h
  intro c hc
  cases cs with
  | nil => cases hc
  | cons x cs => exact hc

/-- An address is what stands between the blanks that the parentheses enclose. -/
theorem isAddress_trimBlanks {cs : List Char} (hall : ∀ c ∈ cs, isAddressChar c = true)
    (hhead : ∀ c ∈ cs.head?, isBlank c = false) : IsAddress (trimBlanks cs) := by
  obtain ⟨gap, hgap, -⟩ := trimBlanks_append cs
  have hbegins : trimBlanks cs <+: cs := ⟨gap, hgap.symm⟩
  refine ⟨fun c hc => hall c (hbegins.subset hc), ?_, trimBlanks_idem cs⟩
  exact fun c hc => hhead c (head?_of_beginning hbegins c hc)

/-- An address is read as its call, and the blanks around what it encloses. -/
inductive ReadsUrl (c : Cursor) : Value → Cursor → Prop
  | intro {start stop closed rest : Cursor} {callee before address after : List Char}
    (hcallee : CallsUrl callee) (hopen : c.Reads (callee ++ '(' :: before) start)
    (haddress : start.Reads address stop) (hafter : stop.Reads after closed)
    (hclose : closed.Reads [')'] rest) (hblank : ∀ b ∈ before, isBlank b = true)
    (hblank' : ∀ b ∈ after, isBlank b = true) (his : IsAddress address) :
    ReadsUrl c (.url (start.next address.length)) rest

theorem ReadsUrl.reaches {c rest : Cursor} {v : Value} (h : ReadsUrl c v rest) :
    c.Reaches rest := by
  cases h with
  | intro _ hopen haddress hafter hclose _ _ _ =>
    exact ⟨_, ((hopen.trans haddress).trans hafter).trans hclose⟩

theorem peek_of_within {c : Cursor} (hc : c.Within) (count : Nat) :
    c.peek count = c.ahead.take count :=
  Cursor.chars_next hc.1 count

theorem opensQuoted_take_one (cs : List Char) : opensQuoted (cs.take 1) = opensQuoted cs := by
  cases cs <;> rfl

/-- An address from its start. The miss is at the place where its name stands. -/
def addressFrom (place start : Cursor) : Outcome Value :=
  if opensQuoted (start.peek 1) then .missed place "url"
  else
    let found := addressChars start.onward
    let stop := start.advance found.length
    if stop.startsWith [')'] then
      .matched (.url (start.next (trimBlanks found).length)) (stop.advance 1)
    else .failed stop (quoted [')']) "url"

theorem url_from (c : Cursor) :
    url c =
      if isLowered ['u', 'r', 'l', '('] (c.peek 4) then
        addressFrom c ((c.advance 4).advance ((c.advance 4).onward.takeWhile isBlank).length)
      else .missed c "url" := rfl

/-- What the rule does behind the parenthesis and the blanks there. -/
theorem url_eq {c start : Cursor} (hc : c.Within) {callee before : List Char}
    (hcallee : CallsUrl callee) (hopen : c.Reads (callee ++ '(' :: before) start)
    (hblank : ∀ b ∈ before, isBlank b = true) (hstop : ∀ b ∈ start.ahead.head?, isBlank b = false) :
    url c =
      if opensQuoted start.ahead then .missed c "url"
      else
        let found := addressChars start.ahead
        let stop := start.advance found.length
        if stop.startsWith [')'] then
          .matched (.url (start.next (trimBlanks found).length)) (stop.advance 1)
        else .failed stop (quoted [')']) "url" := by
  have hlength : callee.length = 3 := hcallee.length
  have hahead : c.ahead = (callee ++ ['(']) ++ (before ++ start.ahead) := by
    rw [hopen.ahead]
    simp only [List.append_assoc, List.cons_append, List.nil_append]
  have hpeek : isLowered ['u', 'r', 'l', '('] (c.peek 4) = true := by
    rw [show c.peek 4 = c.ahead.take 4 from peek_of_within hc 4, hahead, List.append_assoc]
    exact hcallee.isLowered _
  have hopened := (hc.reads hahead).within hc
  have hbehind := hc.ahead_advance hahead
  have hfour : (callee ++ ['(']).length = 4 := by rw [List.length_append, hlength]; rfl
  rw [hfour] at hopened hbehind
  have hblanks : (c.advance 4).onward.takeWhile isBlank = before := by
    rw [Cursor.onward_eq hopened.1, hbehind, takeWhile_append_stop hblank hstop]
  have hstart : (c.advance 4).advance before.length = start := by
    rw [hopen.rest, Cursor.advance_advance, List.length_append, hlength, List.length_cons]
    congr 1
    omega
  have hwithin := hopen.within hc
  have hquote : opensQuoted (start.peek 1) = opensQuoted start.ahead := by
    rw [show start.peek 1 = start.ahead.take 1 from peek_of_within hwithin 1, opensQuoted_take_one]
  unfold url
  rw [if_pos hpeek]
  dsimp only
  rw [hblanks, hstart, hquote, Cursor.onward_eq hwithin.1]

theorem url_misses {c : Cursor} (hc : c.Within)
    (h : isLowered ['u', 'r', 'l', '('] (c.ahead.take 4) = false) : MissesAt url c := by
  refine ⟨c, "url", ?_⟩
  unfold url
  rw [show c.peek 4 = c.ahead.take 4 from peek_of_within hc 4, h]
  rfl

theorem head?_dropWhile_isBlank (cs : List Char) :
    ∀ b ∈ (cs.dropWhile isBlank).head?, isBlank b = false := by
  intro b hb
  have hhead := List.head?_dropWhile_not isBlank cs
  rw [Option.mem_def.mp hb] at hhead
  exact hhead

/-- The parenthesis and the blanks behind it are read. -/
theorem reads_callee {c : Cursor} (hc : c.Within) {callee l : List Char}
    (hahead : c.ahead = callee ++ '(' :: l) :
    ∃ start, c.Reads (callee ++ '(' :: l.takeWhile isBlank) start ∧
      start.ahead = l.dropWhile isBlank := by
  have hsplit : c.ahead = (callee ++ '(' :: l.takeWhile isBlank) ++ l.dropWhile isBlank := by
    rw [hahead, List.append_assoc, List.cons_append, List.takeWhile_append_dropWhile]
  exact ⟨_, hc.reads hsplit, hc.ahead_advance hsplit⟩

/-- Where the rule misses behind the name that calls for an address, a quotation mark stands. -/
theorem opensQuoted_of_url_misses {c : Cursor} (hc : c.Within) {callee l : List Char}
    (hcallee : CallsUrl callee) (hahead : c.ahead = callee ++ '(' :: l) (h : MissesAt url c) :
    opensQuoted (l.dropWhile isBlank) = true := by
  obtain ⟨start, hopen, hbehind⟩ := reads_callee hc hahead
  obtain ⟨place, expected, hmiss⟩ := h
  have hblank : ∀ b ∈ l.takeWhile isBlank, isBlank b = true :=
    List.all_eq_true.mp List.all_takeWhile
  have hstop : ∀ b ∈ start.ahead.head?, isBlank b = false := hbehind ▸ head?_dropWhile_isBlank l
  rw [url_eq hc hcallee hopen hblank hstop, hbehind] at hmiss
  split at hmiss
  · assumption
  · dsimp only at hmiss
    split at hmiss <;> cases hmiss

/-- What the parentheses enclose is read as an address and the blanks behind it. -/
theorem reads_addressChars {start : Cursor} (hstart : start.Within)
    (hhead : ∀ b ∈ start.ahead.head?, isBlank b = false) :
    ∃ stop after, start.Reads (trimBlanks (addressChars start.ahead)) stop ∧
      stop.Reads after (start.advance (addressChars start.ahead).length) ∧
      (∀ b ∈ after, isBlank b = true) ∧ IsAddress (trimBlanks (addressChars start.ahead)) := by
  have hfound := addressChars_append start.ahead
  obtain ⟨after, hafter, hblank⟩ := trimBlanks_append (addressChars start.ahead)
  have his : IsAddress (trimBlanks (addressChars start.ahead)) := by
    refine isAddress_trimBlanks (fun x hx => isAddressChar_of_mem hx) fun x hx => hhead x ?_
    exact head?_of_beginning ⟨_, hfound⟩ x hx
  generalize addressChars start.ahead = found at hfound hafter his ⊢
  generalize trimBlanks found = address at hafter his ⊢
  have hsplit : start.ahead = address ++ (after ++ start.ahead.drop found.length) := by
    rw [← List.append_assoc, ← hafter, hfound]
  have haddress := hstart.reads hsplit
  have hbehind := (haddress.within hstart).reads (hstart.ahead_advance hsplit)
  rw [Cursor.advance_advance, ← List.length_append, ← hafter] at hbehind
  exact ⟨_, after, haddress, hbehind, hblank, his⟩

theorem url_ensures : url.Ensures ReadsUrl := by
  intro c v rest hc h
  by_cases hpeek : isLowered ['u', 'r', 'l', '('] (c.ahead.take 4) = true
  · obtain ⟨callee, l, hahead, hcallee, -⟩ := isLowered_url hpeek
    obtain ⟨start, hopen, hbehind⟩ := reads_callee hc hahead
    have hstart := hopen.within hc
    have hblank : ∀ b ∈ l.takeWhile isBlank, isBlank b = true :=
      List.all_eq_true.mp List.all_takeWhile
    have hstop : ∀ b ∈ start.ahead.head?, isBlank b = false :=
      hbehind ▸ head?_dropWhile_isBlank l
    rw [url_eq hc hcallee hopen hblank hstop] at h
    split at h
    · cases h
    · dsimp only at h
      split at h
      · rename_i hclose
        cases h
        obtain ⟨stop, after, haddress, hafter, hblank', his⟩ := reads_addressChars hstart hstop
        have hclosed := hafter.within (haddress.within hstart)
        have hend := Cursor.Reads.of_startsWith hclosed hclose
        exact ⟨⟨_, ((hopen.trans haddress).trans hafter).trans hend⟩,
          .intro hcallee hopen haddress hafter hend hblank hblank' his⟩
      · cases h
  · obtain ⟨place, expected, hmiss⟩ := url_misses hc (by simpa using hpeek)
    rw [hmiss] at h
    cases h

/-! ## Addresses that are written -/

theorem isAddressChar_stop : isAddressChar ')' = false := by decide

theorem addressChars_stop (h : ∀ c ∈ t, isAddressChar c = true) (k : List Char) :
    addressChars (t ++ ')' :: k) = t :=
  takeWhile_append_stop h (by simp [isAddressChar_stop])

theorem opensQuoted_false (h : ∀ c ∈ t.head?, isAddressChar c = true) (ht : t ≠ []) :
    opensQuoted t = false := by
  cases t with
  | nil => exact absurd rfl ht
  | cons c t =>
    have hc := h c rfl
    simp only [isAddressChar, Bool.not_eq_true', Bool.or_eq_false_iff] at hc
    exact hc.1.1.2

/-- What the parentheses enclose is read as an address, with blanks around it. -/
theorem accepts_address {callee before found : List Char} (hcallee : CallsUrl callee)
    (hblank : ∀ b ∈ before, isBlank b = true) (hall : ∀ x ∈ found, isAddressChar x = true)
    (hhead : ∀ x ∈ found.head?, isBlank x = false) :
    url.Accepts (callee ++ '(' :: (before ++ (found ++ [')']))) k
      fun v => ∃ u, v = .url u ∧ u.chars = trimBlanks found := by
  intro c hc hahead
  have hsplit : c.ahead = (callee ++ '(' :: before) ++ (found ++ ')' :: k) := by
    rw [hahead]
    simp
  have hopen := hc.reads hsplit
  have hstart := hopen.within hc
  have hbehind := hc.ahead_advance hsplit
  generalize hfrom : c.advance (callee ++ '(' :: before).length = start at hopen hstart hbehind
  have hstop : ∀ b ∈ start.ahead.head?, isBlank b = false := by
    rw [hbehind]
    cases found with
    | nil => exact head_cons (by decide)
    | cons x found => exact hhead
  have hquote : opensQuoted start.ahead = false := by
    rw [hbehind]
    cases found with
    | nil => rfl
    | cons x found =>
      exact opensQuoted_false (t := x :: (found ++ ')' :: k)) (head_cons (hall x (by simp)))
        (by simp)
  have hclose : (start.advance found.length).startsWith [')'] = true :=
    (Cursor.startsWith_iff (by simp)).mpr ⟨k, hstart.ahead_advance hbehind⟩
  refine ⟨.url (start.next (trimBlanks found).length), ?_, _, rfl, ?_⟩
  · rw [url_eq hc hcallee hopen hblank hstop, hquote, if_neg Bool.false_ne_true]
    dsimp only
    rw [hbehind, addressChars_stop hall, if_pos hclose, ← hfrom, Cursor.advance_advance,
      Cursor.advance_advance]
    congr 2
    simp only [List.length_append, List.length_cons, List.length_nil]
    omega
  · obtain ⟨gap, hgap, -⟩ := trimBlanks_append found
    have hfound : start.ahead = trimBlanks found ++ (gap ++ ')' :: k) := by
      rw [← List.append_assoc, ← hgap, hbehind]
    exact (hstart.reads hfound).chars_next hstart

theorem accepts_url (h : IsAddress t) :
    url.Accepts ('u' :: 'r' :: 'l' :: '(' :: t ++ [')']) k
      fun v => ∃ u, v = .url u ∧ u.chars = t := by
  have hcallee : CallsUrl ['u', 'r', 'l'] := by rfl
  have haddress := accepts_address (k := k) hcallee (fun _ h => absurd h List.not_mem_nil)
    h.all h.head
  rw [h.last] at haddress
  exact haddress

/-- Where a quotation mark opens behind the name that calls for an address, the whole is none. -/
theorem url_refuses_quoted {callee l : List Char} (hcallee : CallsUrl callee)
    (hquote : opensQuoted (l.dropWhile isBlank) = true) : url.Refuses (callee ++ '(' :: l) := by
  intro c hc hahead
  obtain ⟨start, hopen, hbehind⟩ := reads_callee hc hahead
  refine ⟨c, "url", ?_⟩
  rw [url_eq hc hcallee hopen (List.all_eq_true.mp List.all_takeWhile)
    (hbehind ▸ head?_dropWhile_isBlank l), hbehind, hquote]
  rfl

/-- A name is read as no address, unless an opening parenthesis stands behind the one name that
calls for it, and no quotation mark behind that. -/
theorem url_refuses_name {cs : List Char} (h : IsName cs)
    (hk : ∀ c ∈ k.head?, isNameChar c = false)
    (hurl : CallsUrl cs → ∀ l, k = '(' :: l → opensQuoted (l.dropWhile isBlank) = true) :
    url.Refuses (cs ++ k) := by
  intro c hc hahead
  by_cases hpeek : isLowered ['u', 'r', 'l', '('] (c.ahead.take 4) = true
  · obtain ⟨callee, l, hcall, hcallee, hall⟩ := isLowered_url hpeek
    have hparen : ∀ x ∈ ('(' :: l).head?, isNameChar x = false := head_cons rfl
    have hsame : cs = callee := by
      have htake := takeWhile_append_stop h.all hk
      rw [← hahead, hcall, takeWhile_append_stop hall hparen] at htake
      exact htake.symm
    subst hsame
    have hk := List.append_cancel_left (hahead.symm.trans hcall)
    exact url_refuses_quoted hcallee (hurl hcallee l hk) c hc hcall
  · exact url_misses hc (by simpa using hpeek)

end LessSyntax.Grammar
