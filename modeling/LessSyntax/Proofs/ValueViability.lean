import LessSyntax.Proofs.LexemeViability
import LessSyntax.Proofs.StringViability
import LessSyntax.Proofs.WrittenValue

/-!
# Values that can be completed

The rules for values are compared with those that may open one call more. Where the text has been
read up to a call that is one too many, that call can be closed at once.

What is read as a call may be an address in another text: behind the name that calls for one,
blanks and a parenthesis are an address. This is how such a call is completed as long as no
argument has begun.

* `OpensCall`: where a call begins, and what follows for the text behind.
* `callOver_lexeme`, `primitiveChoice_lexeme`: primitive values where trivia has ended.
* `spaceListOver_viable`, `commaListOver_viable`: the lists.
* `valueAt_viable`: values with the given number of levels left.
-/

namespace LessSyntax.Grammar

open Rule

variable {s : Settings} {deeper : Prop} {inner? inner?' : Option (Rule Value)}
  {argument argument' : Rule Value}
  {expected : Option String} {G : Cursor → Prop} {cs ds k l : List Char}

/-! ## The arguments of a call -/

/-- How the elements of lists are compared that stand between commas. -/
abbrev ViableElement (deeper : Prop) (s : Settings) (rule rule' : Rule Value) : Prop :=
  ViableIf deeper (Ahead s.lineComments true (· ∈ elementEnds))
    (Ahead s.lineComments true (· ∉ nonHeads)) rule rule'

/-- The second rule for arguments is there if it goes deeper, and where the first one is, with which
it is compared. -/
structure Deeper (deeper : Prop) (s : Settings) (inner? inner?' : Option (Rule Value)) : Prop where
  allowed : deeper → ∃ argument', inner?' = some argument'
  viable : ∀ argument ∈ inner?, ∃ argument' ∈ inner?', ViableElement deeper s argument argument'
  refuses : ∀ argument' ∈ inner?', ∀ k, Next s.lineComments (· = ')') k → argument'.Refuses k
  proceeds : ∀ argument ∈ inner?, Proceeds argument
  proceeds' : ∀ argument' ∈ inner?', Proceeds argument'

/-- No argument stands where a parenthesis closes the call. -/
theorem opt_arguments_refuses (hrefuses : argument.Refuses k) :
    (separated1 argument (symbol s [',']) "function").Refuses k :=
  fun c hc hahead => bind_misses (hrefuses c hc hahead)

theorem consumes_noArguments (hrefuses : argument.Refuses (')' :: l)) :
    (arguments s argument).Consumes [')'] l := by
  have hclose : (symbol s [')']).Accepts [')'] l fun _ => True :=
    accepts_symbol .nil (noTrivia_cons (by decide) (by decide)) (by simp)
  have hnone : (opt (separated1 argument (symbol s [',']) "function")).Consumes [] ([')'] ++ l) :=
    accepts_mono (accepts_opt_none (opt_arguments_refuses hrefuses)) fun _ _ => trivial
  exact accepts_map (accepts_cut (accepts_terminated hnone hclose))

theorem arguments_viable (hargument : ViableElement deeper s argument argument')
    (hproceeds : argument.Proceeds) (hproceeds' : argument'.Proceeds)
    (hrefuses : ∀ k, Next s.lineComments (· = ')') k → argument'.Refuses k) :
    ViableIf deeper Anything Anything (arguments s argument) (arguments s argument') := by
  have hseparator : ViableIf deeper (Ahead s.lineComments true (· ∉ nonHeads))
      (Ahead s.lineComments true (· = ',')) (symbol s [',']) (symbol s [',']) :=
    (symbol_viable (by decide)).mono (fun _ _ _ => trivial) fun _ _ => id
  have hcomma : (symbol s [',']).Advances := symbol_advances (by simp)
  have hlist : ViableIf deeper (Ahead s.lineComments true (· = ')')) Anything
      (separated1 argument (symbol s [',']) "function")
      (separated1 argument' (symbol s [',']) "function") := by
    refine (viable_separated1 hargument hseparator hproceeds hproceeds' hcomma hcomma ?_ ?_ ?_).mono
      (fun _ _ => id) fun _ _ _ => trivial
    · exact fun a b h => h.mono (by rintro _ rfl; decide)
    · exact fun a b h => h.mono (by rintro _ rfl; decide)
    · exact fun a b h => symbol_refuses_next (h.next.mono (by rintro _ rfl; decide))
  have hopt := viable_opt hlist (fun _ _ => id) (fun _ _ _ => trivial) fun a b h =>
    opt_arguments_refuses (hrefuses b h.next)
  exact viable_map (viable_cut (viable_terminated hopt (symbol_viable (by decide))))

/-- The arguments end with the parenthesis that closes the call. -/
theorem arguments_closed (hproceeds : argument.Proceeds) :
    (arguments s argument).Ensures fun c _ rest => ∃ ds, c.Reads (ds ++ [')']) rest := by
  have hopt : (opt (separated1 argument (symbol s [',']) "function")).Ensures
      fun _ _ _ => True :=
    ensures_opt (separated1_ensures (by simp) hproceeds).proceeds fun _ => trivial
  refine ensures_map (ensures_cut (ensures_terminated hopt (symbol_ensures (by simp)) ?_))
  rintro c found mid _ rest ⟨cs, hcs⟩ - - ⟨start, ⟨w, hw, -⟩, hmark⟩
  exact ⟨cs ++ w, (hcs.trans hw).trans hmark⟩

/-! ## Calls -/

/-- What is read as an address is read as no other value before. -/
theorem consumes_ofUrl {x : Char} (hx : x ∈ ['u', 'U']) (h : url.Consumes (x :: cs) l) :
    (primitiveChoice s inner? expected).Consumes (x :: cs) l := by
  have hplain : ∀ y ∈ ['u', 'U'], isQuotationMark y = false ∧ y ≠ '#' ∧ isNumeric y = false :=
    forall_mem_of_all rfl
  obtain ⟨hquote, hhash, hnumeric⟩ := hplain x hx
  exact accepts_choice_plain hquote hhash (accepts_choice_tail
    (number_refuses (numberLength?_none (head_cons hnumeric))) (accepts_choice_head h))

theorem consumes_url (h : OpensAddress cs) :
    (primitiveChoice s inner? expected).Consumes (cs ++ [')']) l := by
  have hconsumes := h.consumes l
  obtain ⟨callee, before, found, rfl, hcallee, -⟩ := h
  obtain ⟨x, m, rfl, hx⟩ := hcallee.head
  exact consumes_ofUrl hx hconsumes

theorem consumes_call (his : IsName cs) (hnumber : numberLength? cs = none)
    (hurl : CallsUrl cs → opensQuoted ((ds ++ l).dropWhile isBlank) = true)
    (harguments : (arguments s argument).Consumes ds l) :
    (primitiveChoice s (some argument) expected).Consumes (cs ++ '(' :: ds) l := by
  refine accepts_choice_name _ his (numberLength?_name his hnumber (head_cons rfl)) (head_cons rfl)
    (fun hcalls k hk => ?_) (accepts_choice_head
      (accepts_mono (accepts_callOver his harguments) fun _ _ => trivial))
  obtain rfl := (List.cons.inj hk).2
  exact hurl hcalls

/-- Where something but blanks stands, the first such character decides. -/
theorem opensQuoted_beginning (h : ∃ x ∈ ds, isBlank x = false)
    (hquote : opensQuoted ((ds ++ k).dropWhile isBlank) = true) (l : List Char) :
    opensQuoted ((ds ++ l).dropWhile isBlank) = true := by
  induction ds with
  | nil =>
    obtain ⟨x, hx, -⟩ := h
    cases hx
  | cons y ds ih =>
    rw [List.cons_append, List.dropWhile_cons] at hquote ⊢
    cases hy : isBlank y with
    | false =>
      rw [hy, if_neg Bool.false_ne_true] at hquote
      exact hquote
    | true =>
      rw [hy, if_pos rfl] at hquote
      refine ih ?_ hquote
      obtain ⟨x, hx, hblank⟩ := h
      rcases List.mem_cons.mp hx with rfl | hx
      · rw [hy] at hblank
        cases hblank
      · exact ⟨x, hx, hblank⟩

/-- A call misses where it begins, unless a parenthesis opens behind a name. -/
theorem callOver_cases (s : Settings) (inner? : Option (Rule Value)) {c : Cursor} (hc : c.Within) :
    (callOver s inner? c = .missed c "function" ∧
      ∀ callee named, name c = .matched callee named → named.startsWith ['('] = false) ∨
    ∃ callee cs named opened,
      name c = .matched callee named ∧ IsName cs ∧ c.Reads cs named ∧ named.Reads ['('] opened ∧
        callOver s inner? c = match inner? with
          | none => .failed named (depthLabel s "calls") "function"
          | some argument => (arguments s argument opened.nested).bind fun found stop =>
            .matched (.call callee found) (stop.withDepth c.depth) := by
  unfold callOver
  cases hname : name c with
  | matched callee named =>
    obtain ⟨cs, hreads, his, -⟩ := name_matched hc hname
    dsimp only
    by_cases hparen : named.startsWith ['('] = true
    · rw [if_pos hparen]
      exact .inr ⟨callee, cs, named, _, rfl, his, hreads,
        .of_startsWith (hreads.within hc) hparen, rfl⟩
    · rw [if_neg hparen]
      refine .inl ⟨rfl, ?_⟩
      rintro _ _ ⟨⟩
      simpa using hparen
  | _ => exact .inl ⟨rfl, nofun⟩

theorem consumes_plainName (his : IsName cs) (hnumber : numberLength? (cs ++ l) = none)
    (hname : ∀ x ∈ l.head?, isNameChar x = false) (hparen : ∀ x ∈ l.head?, x ≠ '(') :
    (primitiveChoice s inner? expected).Consumes cs l :=
  accepts_mono (accepts_choice_plainName his hnumber hname hparen) fun _ _ => trivial

/-- Where nothing has been read a name stands for a primitive value. -/
theorem primitive_fills (hl : Replaces true [] l) :
    ['a'] ≠ [] ∧ Free s.lineComments (isNameChar · = true) (['a'] ++ l) ∧
      (primitiveChoice s inner? expected).Consumes ['a'] l := by
  refine ⟨by simp, isName_a.free l, consumes_plainName isName_a ?_ ?_ ?_⟩
  · exact numberLength?_none (head_cons (by decide))
  · exact replaces_false_nil_stops hl.alike
  · intro x hx
    rw [replaces_nil hl x hx]
    decide

/-- A call without arguments, which is an address behind the name that calls for one. -/
theorem consumes_emptyCall (his : IsName cs) (hnumber : numberLength? cs = none)
    (hrefuses : argument.Refuses (')' :: l)) :
    (primitiveChoice s (some argument) expected).Consumes (cs ++ ['(', ')']) l := by
  by_cases hcalls : CallsUrl cs
  · have hopens : OpensAddress (cs ++ ['(']) :=
      ⟨cs, [], [], rfl, hcalls, by simp, by simp, nofun⟩
    have hconsumes :
        (primitiveChoice s (some argument) expected).Consumes (cs ++ ['('] ++ [')']) l :=
      consumes_url hopens
    rwa [List.append_assoc] at hconsumes
  · exact consumes_call his hnumber (fun h => absurd h hcalls) (consumes_noArguments hrefuses)

/-! ### Where a call begins -/

/-- A name and the parenthesis behind it, where neither a number nor an address is read. -/
structure OpensCall (c : Cursor) (cs : List Char) (named opened : Cursor) : Prop where
  within : c.Within
  isName : IsName cs
  reads : c.Reads cs named
  opens : named.Reads ['('] opened
  noNumber : MissesAt number c
  noUrl : MissesAt url c

namespace OpensCall

variable {c named opened place stop : Cursor} (h : OpensCall c cs named opened)
include h

theorem inside : opened.nested.Within := (h.opens.within (h.reads.within h.within)).nested

theorem ahead : c.ahead = cs ++ '(' :: opened.ahead := by
  rw [h.reads.ahead, h.opens.ahead]
  rfl

theorem numberLength : numberLength? cs = none :=
  numberLength?_of_reads (numberLength?_of_misses h.within h.noNumber) h.reads h.isName

/-- Behind a name that calls for an address, a quotation mark keeps the call from being one. -/
theorem quoted (hcalls : CallsUrl cs) (hds : opened.ahead = ds ++ k)
    (hvisible : ∃ x ∈ ds, isBlank x = false) (l : List Char) :
    opensQuoted ((ds ++ l).dropWhile isBlank) = true := by
  have hquote := opensQuoted_of_url_misses h.within hcalls h.ahead h.noUrl
  rw [hds] at hquote
  exact opensQuoted_beginning hvisible hquote l

/-- Behind the parenthesis another text may stand. -/
theorem replaced (lineComments : Bool) (ds : List Char) : Replaces true c.ahead (cs ++ '(' :: ds) ∧
    Free lineComments (isNameChar · = true) (cs ++ '(' :: ds) := by
  rw [h.ahead]
  exact ⟨(replaces_head (fun _ => by decide) opened.ahead ds).append cs, h.isName.free _⟩

theorem reads_within (hds : opened.nested.Reads ds stop) :
    c.Reads (cs ++ '(' :: ds) (stop.withDepth c.depth) := by
  have hall := (h.reads.trans h.opens).trans hds.of_nested
  rwa [(h.reads.trans h.opens).depth, List.append_assoc] at hall

theorem readsTo_within (hds : opened.nested.ReadsTo ds place) :
    c.ReadsTo (cs ++ '(' :: ds) place := by
  have hall := (h.reads.trans h.opens).trans_to hds.of_nested
  rwa [List.append_assoc] at hall

/-- Only blanks behind the name of an address: then a parenthesis closes it. Otherwise the
arguments are completed. -/
theorem completed (expected : Option String) (hds : opened.nested.ReadsTo ds place) {x : List Char}
    (harguments : ∀ l, (arguments s argument).Consumes (ds ++ x) l) :
    ∃ y, ∀ l, (primitiveChoice s (some argument) expected).Consumes (cs ++ '(' :: (ds ++ y)) l := by
  by_cases hblank : CallsUrl cs ∧ ∀ y ∈ ds, isBlank y = true
  · have hopens : OpensAddress (cs ++ '(' :: ds) :=
      ⟨cs, ds, [], by simp, hblank.1, hblank.2, by simp, nofun⟩
    refine ⟨[')'], fun l => ?_⟩
    have hread :
        (primitiveChoice s (some argument) expected).Consumes (cs ++ '(' :: ds ++ [')']) l :=
      consumes_url hopens
    rwa [List.append_assoc] at hread
  · refine ⟨x, fun l => consumes_call h.isName h.numberLength (fun hcalls => ?_) (harguments l)⟩
    have hvisible : ∃ y ∈ ds, isBlank y = false := by simpa [hcalls] using hblank
    rw [List.append_assoc]
    exact h.quoted hcalls hds.ahead hvisible (x ++ l)

end OpensCall

/-- What closes the arguments is no blank. -/
theorem arguments_visible {c stop : Cursor} {found : List Value} (hproceeds : argument.Proceeds)
    (hc : c.Within) (hfound : arguments s argument c = .matched found stop)
    (hds : c.Reads ds stop) : ∃ x ∈ ds, isBlank x = false := by
  obtain ⟨-, e, he⟩ := arguments_closed hproceeds _ _ _ hc hfound
  have hsame : ds = e ++ [')'] := List.append_cancel_right (hds.ahead.symm.trans he.ahead)
  exact ⟨')', by simp [hsame], by decide⟩

theorem callOver_lexeme (h : Deeper deeper s inner? inner?') :
    Lexeme deeper s.lineComments true (fun c => MissesAt number c ∧ MissesAt url c) (Replaces true)
      (isNameChar · = true) (callOver s inner?) (primitiveChoice s inner?' expected) := by
  have harguments : ∀ argument ∈ inner?, ∃ argument', inner?' = some argument' ∧
      ViableIf deeper Anything Anything (arguments s argument) (arguments s argument') := by
    intro argument hin
    obtain ⟨argument', hin', hviable⟩ := h.viable argument hin
    exact ⟨argument', hin', arguments_viable hviable (h.proceeds argument hin)
      (h.proceeds' argument' hin') (h.refuses argument' hin')⟩
  refine ⟨fun {c v rest} hc hG hmatch => ?_, fun {c place} hdeeper hc hG hstop => ?_,
    fun _ => ⟨['a'], fun l => primitive_fills⟩⟩
  · rcases callOver_cases s inner? hc with
      ⟨hmiss, -⟩ | ⟨callee, cs, named, opened, -, his, hcs, hopen, hcall⟩
    · cases hmiss.symm.trans hmatch
    have hopens : OpensCall c cs named opened := ⟨hc, his, hcs, hopen, hG.1, hG.2⟩
    rw [hcall] at hmatch
    cases inner? with
    | none => cases hmatch
    | some argument =>
      obtain ⟨found, stop, hfound, hrest⟩ := Outcome.bind_matched.mp hmatch
      cases hrest
      obtain ⟨argument', rfl, hviable⟩ := harguments argument rfl
      obtain ⟨ds, hds, hstays⟩ := hviable.stays hopens.inside hfound
      have hvisible := arguments_visible (h.proceeds argument rfl) hopens.inside hfound hds
      refine ⟨cs ++ '(' :: ds, by simp, hopens.reads_within hds, fun l _ => ?_⟩
      obtain ⟨hreplaces, hfree⟩ := hopens.replaced s.lineComments (ds ++ l)
      rw [List.append_assoc]
      exact ⟨hreplaces, hfree, consumes_call his hopens.numberLength
        (fun hcalls => hopens.quoted hcalls hds.ahead hvisible l) (hstays l trivial).2⟩
  · rcases callOver_cases s inner? hc with
      ⟨hmiss, -⟩ | ⟨callee, cs, named, opened, -, his, hcs, hopen, hcall⟩
    · rw [hmiss] at hstop
      cases hstop
      exact .inl (.refl c)
    have hopens : OpensCall c cs named opened := ⟨hc, his, hcs, hopen, hG.1, hG.2⟩
    rw [hcall] at hstop
    cases inner? with
    | none =>
      cases hstop
      obtain ⟨argument', rfl⟩ := h.allowed hdeeper
      refine .inr ⟨cs, ['(', ')'], his.ne_nil, hcs.to, fun l _ => ?_⟩
      obtain ⟨hreplaces, hfree⟩ := hopens.replaced s.lineComments (')' :: l)
      refine ⟨hreplaces, hfree, consumes_emptyCall his hopens.numberLength ?_⟩
      refine h.refuses argument' rfl _ ?_
      exact ⟨[], ')' :: l, rfl, .nil, noTrivia_cons (by decide) (by decide), head_cons rfl⟩
    | some argument =>
      have hinner : (arguments s argument opened.nested).StopsAt place := by
        rcases Outcome.stopsAt_bind hstop with hinner | ⟨found, stop, -, hinner⟩
        · exact hinner
        · cases hinner
      obtain ⟨argument', rfl, hviable⟩ := harguments argument rfl
      obtain ⟨ds, x, hds, hresumes⟩ := hviable.resumes hdeeper hopens.inside hinner
      obtain ⟨y, hread⟩ := hopens.completed expected hds fun l => (hresumes l trivial).2
      refine .inr ⟨cs ++ '(' :: ds, y, by simp, hopens.readsTo_within hds, fun l _ => ?_⟩
      obtain ⟨hreplaces, hfree⟩ := hopens.replaced s.lineComments (ds ++ (y ++ l))
      rw [List.append_assoc, List.append_assoc]
      exact ⟨hreplaces, hfree, hread l⟩

/-! ## Primitive values -/

/-- Where the rule for calls misses behind a name no parenthesis opens. -/
theorem startsWith_of_callOver_misses {c rest : Cursor} {t : Text} (hc : c.Within)
    (hname : name c = .matched t rest) (hmiss : MissesAt (callOver s inner?) c) :
    rest.startsWith ['('] = false := by
  obtain ⟨place, label, hmiss⟩ := hmiss
  rcases callOver_cases s inner? hc with
    ⟨-, hparen⟩ | ⟨callee, cs, named, opened, -, -, -, -, hcall⟩
  · exact hparen t rest hname
  · rw [hcall] at hmiss
    cases inner? with
    | none => cases hmiss
    | some argument =>
      have hnever : NeverMisses (arguments s argument) := neverMisses_map (neverMisses_cut _ _)
      cases harguments : arguments s argument opened.nested with
      | missed start expected => exact absurd ⟨start, expected, harguments⟩ (hnever _)
      | matched found stop | failed start expected blamed =>
        dsimp only at hmiss
        rw [harguments] at hmiss
        cases hmiss

theorem identifier_lexeme :
    Lexeme deeper s.lineComments true (fun c => MissesAt number c ∧ MissesAt (callOver s inner?) c)
      (Replaces true) (isNameChar · = true) (map Value.identifier name)
      (primitiveChoice s inner?' expected) where
  stays {c v rest} hc hG hmatch := by
    obtain ⟨t, hname, -⟩ := map_matched.mp hmatch
    obtain ⟨cs, his, hreads, hends⟩ := name_stays hc hname
    have hnone := numberLength?_of_misses hc hG.1
    rw [hreads.ahead] at hnone
    have hparen : ∀ x ∈ rest.ahead.head?, (fun x => x == '(') x = false := by
      have hstarts := startsWith_of_callOver_misses hc hname hG.2
      rw [Cursor.startsWith_one] at hstarts
      intro x hx
      rw [Option.mem_def.mp hx] at hstarts
      simpa using hstarts
    have hmark : ∀ x ∈ rest.ahead.head?, Decimal.isExponentMark x = false := by
      intro x hx
      have hletter := hends x hx
      simp only [isNameChar, isNameStart, Bool.or_eq_false_iff] at hletter
      exact isExponentMark_of_isLetter hletter.1.1.1.1
    refine ⟨cs, his.ne_nil, hreads, fun l hl => ⟨?_, his.free l, ?_⟩⟩
    · exact hreads.ahead ▸ hl.append_of_ne_nil his.ne_nil true
    · refine consumes_plainName his ?_ (hl.stops (by decide) hends) fun x hx => ?_
      · rw [numberLength?_replaced his.ne_nil hl hmark fun count hcount => ?_]
        · exact hnone
        · cases hnone.symm.trans hcount
      · exact beq_eq_false_iff_ne.mp (hl.stops (by decide) hparen x hx)
  resumes _ _ _ hstop := .inl (.of_eq (scan_stops (Outcome.stopsAt_map hstop)))
  fills _ := ⟨['a'], fun l => primitive_fills⟩

theorem primitiveChoice_lexeme (h : Deeper deeper s inner? inner?') :
    Lexeme deeper s.lineComments true (fun c => NoTrivia s.lineComments c.ahead) (Replaces true)
      (· ∉ nonHeads) (primitiveChoice s inner? expected) (primitiveChoice s inner?' expected) := by
  have hmarks : ∀ x ∈ ['#', '@', '$', 'u', 'U'], x ∉ nonHeads := forall_mem_of_all rfl
  have hname : ∀ x, isNameChar x = true → x ∉ nonHeads := fun x =>
    notMem_of_apart isNameChar_nonHeads
  refine lexeme_choice_cons ?_ (lexeme_choice_cons ?_ (lexeme_choice_cons ?_ (lexeme_choice_cons ?_
    (lexeme_choice_cons ?_ (lexeme_choice fun r hr => ?_)))))
  · exact (quotedString_lexeme.trans fun x cs l _ hread => accepts_choice_head hread).mono
      (fun _ => id) (fun _ _ _ => trivial) fun x => notMem_of_apart quotationMark_nonHeads
  · refine (color_lexeme.trans fun x cs l hx hread => ?_).mono (fun _ => id)
      (fun _ _ => Replaces.alike) (by rintro x rfl; exact hmarks _ (by simp))
    subst hx
    exact accepts_choice_tail (quotedString_refuses (head_cons (by decide)))
      (accepts_choice_head hread)
  · refine (number_lexeme.trans fun x cs l hx hread => ?_).mono (fun _ => id) (fun _ _ => id)
      fun x => notMem_of_apart isNumeric_nonHeads
    obtain ⟨hquote, hhash⟩ := isNumeric_plain hx
    exact accepts_choice_plain hquote hhash (accepts_choice_head hread)
  · exact (url_lexeme.trans fun x cs l hx hread => consumes_ofUrl hx hread).mono (fun _ => id)
      (fun _ _ _ => trivial) fun x hx => hmarks x (by simpa using Or.inr (Or.inr (Or.inr hx)))
  · exact (callOver_lexeme h).mono (fun _ hG => ⟨hG.1.2, hG.2⟩) (fun _ _ => id) hname
  · simp only [List.mem_cons, List.not_mem_nil, or_false] at hr
    rcases hr with rfl | rfl | rfl
    · refine ((Lexeme.map (g := Value.variable) atName_lexeme).trans fun x cs l hx hread => ?_).mono
        (fun _ => id) (fun _ _ => Replaces.alike) (by rintro x rfl; exact hmarks _ (by simp))
      subst hx
      exact accepts_choice_marked (by decide) (by decide) (by decide) (accepts_choice_head hread)
    · refine ((Lexeme.map (g := Value.property) (nameAfter_lexeme (by decide) (by decide)
        fun _ => by decide)).trans fun x cs l hx hread => ?_).mono
        (fun _ => id) (fun _ _ => Replaces.alike) (by rintro x rfl; exact hmarks _ (by simp))
      subst hx
      exact accepts_choice_marked (by decide) (by decide) (by decide) (accepts_choice_tail
        (map_refuses (atName_refuses (head_cons (by decide)))) (accepts_choice_head hread))
    · exact identifier_lexeme.mono (fun _ hG => ⟨hG.1.1.2, hG.2⟩) (fun _ _ => id) hname

/-! ## Lists -/

section

variable (h : Deeper deeper s inner? inner?')
include h

theorem primitiveOver_viable :
    ViableIf deeper (Replaces true) (Ahead s.lineComments true (· ∉ nonHeads))
      (primitiveOver s inner?) (primitiveOver s inner?') :=
  token_viable (primitiveChoice_lexeme h)

theorem slashListOver_viable :
    ViableIf deeper (Ahead s.lineComments true (· ≠ '/')) (Ahead s.lineComments true (· ∉ nonHeads))
      (slashListOver s inner?) (slashListOver s inner?') := by
  have hslash : ViableIf deeper (Ahead s.lineComments true (· ∉ nonHeads))
      (Ahead s.lineComments true (· = '/')) (symbol s ['/']) (symbol s ['/']) :=
    (token_viable slash_lexeme).mono (fun _ _ hahead => hahead.1.alike) fun _ _ => id
  have hadvances : (symbol s ['/']).Advances := symbol_advances (by simp)
  exact viable_map (viable_separated1 (primitiveOver_viable h) hslash
    (primitiveOver_advances h.proceeds).proceeds (primitiveOver_advances h.proceeds').proceeds
    hadvances hadvances (fun _ _ => And.left) (fun _ _ => And.left)
    fun _ _ hahead => symbol_refuses_next hahead.next)

theorem spaceListOver_viable :
    ViableElement deeper s (spaceListOver s inner?) (spaceListOver s inner?') := by
  refine viable_map (viable_many1 (slashListOver_viable h) (slashListOver_advances h.proceeds)
    (slashListOver_advances h.proceeds') (fun _ _ => Ahead.mono ?_) (fun _ _ => Ahead.mono ?_) ?_)
  · rintro x hx rfl
    exact absurd hx (by decide)
  · rintro x hx rfl
    exact hx (by decide)
  · rintro a b ⟨-, w, l, rfl, hrun, hstop, hl⟩
    exact slashList_refuses hrun hstop fun x hx => elementEnds_subset (hl x hx)

theorem commaListOver_viable :
    ViableIf deeper (Ahead s.lineComments true (· ∈ valueEnds))
      (Ahead s.lineComments true (· ∉ nonHeads)) (commaListOver s inner?)
      (commaListOver s inner?') := by
  have hcomma : (symbol s [',']).Advances := symbol_advances (by simp)
  refine viable_map (viable_separated1 (spaceListOver_viable h)
    ((symbol_viable (by decide)).mono (fun _ _ _ => trivial) fun _ _ => id)
    (spaceListOver_advances h.proceeds).proceeds (spaceListOver_advances h.proceeds').proceeds
    hcomma hcomma (fun _ _ => Ahead.mono fun x => List.mem_cons_of_mem _)
    (fun _ _ => Ahead.mono ?_) fun _ _ hahead => symbol_refuses_next (hahead.next.mono ?_))
  · rintro x rfl
    exact List.mem_cons_self
  · rintro x hx rfl
    exact absurd hx (by decide)

end

/-! ## All levels -/

theorem argument?_refuses (levels : Nat) : ∀ argument ∈ argument? s levels, ∀ k,
    Next s.lineComments (· = ')') k → argument.Refuses k := by
  cases levels with
  | zero => exact nofun
  | succ levels =>
    rintro _ ⟨⟩ _ ⟨w, l, rfl, hrun, hstop, hl⟩
    refine spaceList_refuses hrun hstop fun x hx => ?_
    rw [hl x hx]
    decide

/-- With more levels left a call may be opened where none could be. -/
theorem argument?_deeper {levels levels' : Nat} (hle : levels ≤ levels')
    (hdeeper : deeper → levels < levels') :
    Deeper deeper s (argument? s levels) (argument? s levels') := by
  induction levels generalizing levels' with
  | zero =>
    refine ⟨fun h => ?_, nofun, argument?_refuses levels', nofun, argument?_proceeds levels'⟩
    obtain ⟨n, rfl⟩ : ∃ n, levels' = n + 1 := ⟨levels' - 1, by have := hdeeper h; omega⟩
    exact ⟨_, rfl⟩
  | succ levels ih =>
    obtain ⟨n, rfl⟩ : ∃ n, levels' = n + 1 := ⟨levels' - 1, by omega⟩
    have hinner : Deeper deeper s (argument? s levels) (argument? s n) :=
      ih (by omega) fun h => Nat.lt_of_succ_lt_succ (hdeeper h)
    refine ⟨fun _ => ⟨_, rfl⟩, ?_, argument?_refuses (n + 1), argument?_proceeds (levels + 1),
      argument?_proceeds (n + 1)⟩
    rintro _ ⟨⟩
    exact ⟨_, rfl, spaceListOver_viable hinner⟩

/-- Values with the given numbers of levels left. -/
theorem valueAt_viableIf {levels levels' : Nat} (hle : levels ≤ levels')
    (hdeeper : deeper → levels < levels') :
    ViableIf deeper (Ahead s.lineComments true (· ∈ valueEnds))
      (Ahead s.lineComments true (· ∉ nonHeads)) (valueAt s levels) (valueAt s levels') :=
  commaListOver_viable (argument?_deeper hle hdeeper)

/-- Values with one more level left. -/
theorem valueAt_viable (levels : Nat) :
    Viable (Ahead s.lineComments true (· ∈ valueEnds)) (Ahead s.lineComments true (· ∉ nonHeads))
      (valueAt s levels) (valueAt s (levels + 1)) :=
  valueAt_viableIf (Nat.le_succ levels) fun _ => Nat.lt_succ_self levels

end LessSyntax.Grammar
