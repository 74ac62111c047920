import LessSyntax.Proofs.EntryAgreement
import LessSyntax.Proofs.LastCharacter
import LessSyntax.Proofs.LeafValues
import LessSyntax.Proofs.ValueViability

/-!
# Lists as arguments

The text of a value is written into the parentheses of a call. A newline before the closing
parenthesis ends a comment that would reach over it. The whole is read as a call with at least one
argument exactly if the text is a value by itself. The arguments are then the elements of that
value: those of a list with commas, or the one value that is no such list. They stand one level
deeper and further on.

A name that calls for an address is left out, since an address stands in its parentheses. So are
names that begin with a number; there are none of these in ASCII.

* `valueAt_closed_iff`: a value up to the end of the text, and before the end of a call.
* `arguments_iff`: the arguments of a call, and the elements of a value.
* `callOver_iff`: a call at the start of a text, and the text behind its parenthesis.
* `parseValue_arguments_iff`: the value, and the call around it.
-/

namespace LessSyntax

open Grammar Rule Cursor

variable {s : Settings} {levels : Nat} {c mid rest stop : Cursor} {cs : List Char}
  {v : Value} {args : List Value}

/-! ## The text in the parentheses -/

/-- What is read as a value up to the end of a text is read before the end of a call as well. -/
theorem valueAt_closed (hread : valueAt s levels (ofText cs) = .matched v mid)
    (hend : mid.Nears s.lineComments []) :
    ∃ mid', valueAt s levels (ofText (cs ++ ['\n', ')'])) = .matched v mid' ∧
      mid'.Nears s.lineComments [')'] := by
  have hagree := valueAt_agrees levels _ _ (inStep_closed (s := s) (.inr rfl) cs)
  rw [hread] at hagree
  generalize valueAt s levels (ofText (cs ++ ['\n', ')'])) = b at hagree ⊢
  cases hagree with
  | ended hd => exact hd.elim
  | @matched _ _ _ mid' hK =>
    obtain ⟨rfl, hmid⟩ := hK
    obtain ⟨l, ⟨-, rfl⟩, hend'⟩ := nears_second hmid hend
    exact ⟨mid', rfl, hend'⟩

/-- A parenthesis that closes the call before its end leaves another one behind it, which is no
trivia. -/
theorem closes_at_end {ds w r : List Char} (hsplit : cs ++ ['\n', ')'] = ds ++ (w ++ ')' :: r))
    (hrun : TriviaRun s.lineComments r []) : r = [] ∧ cs ++ ['\n'] = ds ++ w := by
  have hnil : r = [] := by
    refine Classical.byContradiction fun hne => ?_
    obtain ⟨r, x, rfl⟩ := exists_last hne
    have hlast : cs ++ ['\n'] ++ [')'] = (ds ++ w ++ ')' :: r) ++ ([] ++ [x]) := by
      simpa using hsplit
    obtain ⟨hinside, rfl⟩ := last_eq_of_append hlast
    obtain ⟨-, u, inner, rfl, hline⟩ := hrun.solid_last (by decide) (by decide)
    have hcomment : cs ++ ['\n'] = (ds ++ w ++ ')' :: u) ++ '/' :: '/' :: inner := by
      rw [hinside]
      simp
    exact not_mem_lastLine hcomment hline
  subst hnil
  refine ⟨rfl, (last_eq_of_append (y := ')') (x := ')') (u := w) ?_).1⟩
  simpa using hsplit

/-- The newline before the end of the call is not needed by the value, nor by the trivia behind
it. -/
theorem valueAt_of_closed {t : Text}
    (hread : valueAt s levels (ofText (cs ++ ['\n', ')'])) = .matched v mid)
    (hclose : symbol s [')'] mid = .matched t stop) (hend : stop.Nears s.lineComments []) :
    ∃ v' mid', valueAt s levels (ofText cs) = .matched v' mid' ∧
      mid'.Nears s.lineComments [] := by
  have hstart := within_ofText (cs ++ ['\n', ')'])
  have hsame : ViableIf False (Ahead s.lineComments true (· ∈ valueEnds))
      (Ahead s.lineComments true (· ∉ nonHeads)) (valueAt s levels) (valueAt s levels) :=
    valueAt_viableIf (Nat.le_refl levels) nofun
  obtain ⟨ds, hds, hstays⟩ := hsame.stays hstart hread
  have hmid := hds.within hstart
  obtain ⟨-, place, ⟨w, hw, hrun⟩, hparen⟩ := symbol_ensures (by simp) mid t stop hmid hclose
  obtain ⟨-, r, hr, hrest⟩ := hend
  rw [List.append_nil] at hr
  have hahead : (ofText (cs ++ ['\n', ')'])).ahead = ds ++ (w ++ ([')'] ++ stop.ahead)) := by
    rw [hds.ahead, hw.ahead, hparen.ahead]
  have hsplit : cs ++ ['\n', ')'] = ds ++ (w ++ ')' :: r) := by
    rw [← hr]
    exact hahead
  obtain ⟨rfl, hinside⟩ := closes_at_end hsplit hrest
  -- the value does not end with the newline, so that it is left to the trivia
  have hne : w ≠ [] := by
    rintro rfl
    obtain ⟨es, x, hes, hx⟩ := (valueAt_endsSolid levels _ v mid hstart hread).2
    have hsame : ds = es ++ [x] := List.append_cancel_right (hds.ahead.symm.trans hes.ahead)
    have hlast : cs ++ ['\n'] = es ++ ([] ++ [x]) := by
      rw [hinside, hsame]
      simp
    obtain ⟨-, rfl⟩ := last_eq_of_append hlast
    cases hx
  obtain ⟨w, x, rfl⟩ := exists_last hne
  obtain ⟨rfl, rfl⟩ := last_eq_of_append hinside
  have hmidAhead : mid.ahead = w ++ ['\n', ')'] := by
    rw [hw.ahead, hparen.ahead, hr]
    simp
  have hbehind : Ahead s.lineComments true (· ∈ valueEnds) mid.ahead w := by
    have hreplaces : Replaces true (w ++ ['\n', ')']) (w ++ []) :=
      Replaces.append (.inl atBreak_nil) w
    rw [hmidAhead]
    rw [List.append_nil] at hreplaces
    exact ⟨hreplaces, next_of_run hrun.drop_newline⟩
  obtain ⟨-, hconsumes⟩ := hstays w hbehind
  obtain ⟨v', hv', -⟩ := hconsumes _ (within_ofText (ds ++ w)) (ahead_ofText _)
  have hreads := (within_ofText (ds ++ w)).reads (ahead_ofText (ds ++ w))
  refine ⟨v', _, hv', hreads.within (within_ofText _), w, ?_, hrun.drop_newline⟩
  rw [List.append_nil]
  exact (within_ofText (ds ++ w)).ahead_advance (ahead_ofText _)

/-- A value up to the end of a text, and before the end of a call. -/
theorem valueAt_closed_iff :
    (∃ mid, valueAt s levels (ofText cs) = .matched v mid ∧ mid.Nears s.lineComments []) ↔
      ∃ mid t stop, valueAt s levels (ofText (cs ++ ['\n', ')'])) = .matched v mid ∧
        symbol s [')'] mid = .matched t stop ∧ stop.Nears s.lineComments [] := by
  constructor
  · rintro ⟨mid, hread, hend⟩
    obtain ⟨mid', hread', hend'⟩ := valueAt_closed hread hend
    obtain ⟨t, stop, hclose, hstop, hnil⟩ :=
      symbol_nears (noTrivia_cons (by decide) (by decide)) hend'
    exact ⟨mid', t, stop, hread', hclose, nears_self hstop hnil⟩
  · rintro ⟨mid, t, stop, hread, hclose, hend⟩
    obtain ⟨v', mid', hread', hend'⟩ := valueAt_of_closed hread hclose hend
    obtain ⟨mid'', hagain, -⟩ := valueAt_closed hread' hend'
    cases hread.symm.trans hagain
    exact ⟨mid', hread', hend'⟩

/-! ## Lists with commas -/

section

variable {α β : Type} {rule : Rule α} {separator : Rule β} {context context' : String} {bound : Nat}
  {x : α} {xs : List α} {found : OneOrMore α}

theorem separatedUpTo_nil (h : separatedUpTo rule separator context bound c = .matched [] rest) :
    rest = c := by
  rcases separatedUpTo_matched.mp h with ⟨-, -, rfl⟩ | ⟨mark, next, x, mid, -, -, hmore⟩
  · rfl
  · cases bound with
    | zero => exact hmore.2
    | succ bound =>
      obtain ⟨ys, -, hys⟩ := hmore
      cases hys

/-- What a separator commits to is named in failures only. -/
theorem separatedUpTo_context
    (h : separatedUpTo rule separator context bound c = .matched xs rest) :
    separatedUpTo rule separator context' bound c = .matched xs rest := by
  induction bound generalizing c xs with
  | zero => exact separatedUpTo_matched.mpr (separatedUpTo_matched.mp h)
  | succ bound ih =>
    refine separatedUpTo_matched.mpr ((separatedUpTo_matched.mp h).imp_right ?_)
    rintro ⟨mark, next, x, mid, hmark, hx, ys, hys, hxs⟩
    exact ⟨mark, next, x, mid, hmark, hx, ys, ih hys, hxs⟩

theorem separated1_context (h : separated1 rule separator context c = .matched found rest) :
    separated1 rule separator context' c = .matched found rest := by
  obtain ⟨first, mid, hfirst, h⟩ := Outcome.bind_matched.mp h
  obtain ⟨others, hothers, hfound⟩ := Outcome.map_matched.mp h
  exact Outcome.bind_matched.mpr ⟨first, mid, hfirst,
    Outcome.map_matched.mpr ⟨others, separatedUpTo_context hothers, hfound⟩⟩

/-- A single element, where no separator is ahead behind it. -/
theorem separated1_one (hmiss : MissesAt separator rest) :
    separated1 rule separator context c = .matched ⟨x, []⟩ rest ↔ rule c = .matched x rest := by
  constructor
  · intro h
    obtain ⟨first, mid, hfirst, h⟩ := Outcome.bind_matched.mp h
    obtain ⟨others, hothers, hfound⟩ := Outcome.map_matched.mp h
    cases hfound
    rwa [separatedUpTo_nil hothers]
  · intro h
    exact Outcome.bind_matched.mpr ⟨x, rest, h, Outcome.map_matched.mpr
      ⟨[], separatedUpTo_matched.mpr (.inl ⟨hmiss, rfl, rfl⟩), rfl⟩⟩

theorem many1_one (hmiss : MissesAt rule rest) :
    many1 rule c = .matched ⟨x, []⟩ rest ↔ rule c = .matched x rest := by
  constructor
  · intro h
    obtain ⟨first, mid, hfirst, h⟩ := Outcome.bind_matched.mp h
    obtain ⟨others, hothers, hfound⟩ := Outcome.map_matched.mp h
    cases hfound
    rwa [many_nil hothers]
  · intro h
    exact Outcome.bind_matched.mpr
      ⟨x, rest, h, Outcome.map_matched.mpr ⟨[], many_of_misses hmiss, rfl⟩⟩

end

/-! ## Arguments -/

/-- The elements of a list with commas. Any other value is a single element. -/
def Value.commaParts : Value → List Value
  | .list values .comma => values
  | v => [v]

/-- No element of a list with commas is such a list itself. -/
theorem commaParts_collapse {found : OneOrMore Value} (h : found.first.Written 2) :
    (collapse .comma found).commaParts = found.toList := by
  obtain ⟨first, others⟩ := found
  by_cases hne : others = []
  · subst hne
    cases first with
    | list values separator =>
      cases separator with
      | comma => exact absurd h.1 (by decide)
      | space | slash => rfl
    | _ => rfl
  · rw [collapse_cons .comma first hne]
    rfl

theorem argument_written (levels : Nat) :
    (spaceListOver s (argument? s levels)).Ensures fun _ v _ => v.Written 2 := by
  have hread : (spaceListOver s (argument? s levels)).Ensures
      (ReadsSpaceList s.lineComments (ReadsWritten 2)) :=
    spaceListOver_ensures (argument?_ensures (fun _ _ _ _ _ h => h.written) levels)
  exact ensures_mono hread fun _ _ _ _ _ h => h.written.1

theorem commaParts_of_read {context : String} {found : OneOrMore Value} (hc : c.Within)
    (h : separated1 (spaceListOver s (argument? s levels)) (symbol s [',']) context c
      = .matched found rest) : (collapse .comma found).commaParts = found.toList := by
  obtain ⟨first, mid, hfirst, h⟩ := Outcome.bind_matched.mp h
  obtain ⟨others, -, rfl⟩ := Outcome.map_matched.mp h
  exact commaParts_collapse (argument_written levels c first mid hc hfirst).2

/-- The arguments of a call are the elements of a value, with a parenthesis behind it. -/
theorem arguments_iff (hc : c.Within) (hne : args ≠ []) :
    arguments s (spaceListOver s (argument? s levels)) c = .matched args rest ↔
      ∃ v mid t, valueAt s levels c = .matched v mid ∧ symbol s [')'] mid = .matched t rest ∧
        args = v.commaParts := by
  constructor
  · intro h
    obtain ⟨found, hlist, rfl⟩ := map_matched.mp h
    obtain ⟨mid, t, hfound, hclose⟩ := terminated_matched.mp (cut_matched.mp hlist)
    rcases opt_matched hfound with ⟨vs, rfl, hvs⟩ | ⟨rfl, -, -⟩
    · exact ⟨collapse .comma vs, mid, t, map_matched.mpr ⟨vs, separated1_context hvs, rfl⟩, hclose,
        (commaParts_of_read hc hvs).symm⟩
    · exact absurd rfl hne
  · rintro ⟨v, mid, t, hv, hclose, rfl⟩
    obtain ⟨vs, hvs, rfl⟩ := map_matched.mp hv
    refine map_matched.mpr ⟨some vs, cut_matched.mpr (terminated_matched.mpr ⟨mid, t, ?_, hclose⟩),
      (commaParts_of_read hc hvs).symm⟩
    rw [opt, separated1_context hvs]

/-! ## Calls as values -/

section

variable {n l : List Char} {callee : Text} {inner? : Option (Rule Value)} {argument : Rule Value}

/-- A list of one element is that element, and no call is a list of more. -/
theorem collapse_call {rule : Rule (OneOrMore Value)} {separator : Separator} :
    map (collapse separator) rule c = .matched (.call callee args) rest ↔
      rule c = .matched ⟨.call callee args, []⟩ rest := by
  rw [map_matched]
  constructor
  · rintro ⟨⟨first, others⟩, h, hcall⟩
    cases others with
    | nil =>
      cases hcall
      exact h
    | cons v vs => cases hcall
  · exact fun h => ⟨_, h, rfl⟩

/-- A call up to the end of the text is a primitive value. -/
theorem commaListOver_call (hend : rest.Nears s.lineComments []) :
    commaListOver s inner? c = .matched (.call callee args) rest ↔
      primitiveOver s inner? c = .matched (.call callee args) rest := by
  obtain ⟨hrest, w, hahead, hrun⟩ := hend
  rw [List.append_nil] at hahead
  have hsymbol : ∀ {x : Char}, MissesAt (symbol s [x]) rest :=
    symbol_refuses_next (next_of_run hrun) rest hrest hahead
  have hslash : MissesAt (slashListOver s inner?) rest :=
    slashList_refuses hrun noTrivia_nil (by simp [Boundary]) rest hrest (by simp [hahead])
  rw [commaListOver, collapse_call, separated1_one hsymbol, spaceListOver, collapse_call,
    many1_one hslash, slashListOver, collapse_call, separated1_one hsymbol]

/-- A name that calls for no address is the one of a call where a parenthesis opens behind it. -/
theorem primitiveOver_call (hn : IsName n) (hnumber : ¬ BeginsWithNumber n) (hurl : ¬ CallsUrl n)
    (hc : c.Within) (hahead : c.ahead = n ++ '(' :: l) :
    primitiveOver s (some argument) c = .matched v rest ↔
      callOver s (some argument) c = .matched v rest := by
  obtain ⟨x, m, hx, hchar⟩ := hn.cons
  have hhead : ∀ {p : Char → Prop}, p x → ∀ y ∈ (n ++ '(' :: l).head?, p y := by
    rw [hx]
    exact head_cons
  obtain ⟨hquote, hhash, -⟩ := isNameChar_plain hchar
  have hskip : trivia s c = .matched () c :=
    trivia_of_noTrivia hc (hahead ▸ (heads_name hn).noTrivia _)
  have hnone : numberLength? (n ++ '(' :: l) = none :=
    numberLength?_name hn ((numberLength?_isName hn).mpr hnumber) (head_cons rfl)
  have hopen : (c.advance n.length).startsWith ['('] = true :=
    (startsWith_iff (by simp)).mpr ⟨l, hc.ahead_advance hahead⟩
  have hname := name_eq hn hc hahead (head_cons (by decide))
  rw [primitiveOver, token, hskip]
  dsimp only [Outcome.bind]
  rw [choice_skip (quotedString_refuses (hhead hquote) c hc hahead),
    choice_skip (color_refuses (hhead hhash) c hc hahead),
    choice_skip (number_refuses hnone c hc hahead),
    choice_skip (url_refuses_name hn (head_cons (by decide)) (fun h => absurd h hurl) c hc hahead)]
  -- the parenthesis commits the call, so that no rule behind it is tried
  refine ⟨fun h => ?_, choice_head⟩
  rcases choice_cons_matched h with h | ⟨hmiss, -⟩
  · exact h
  · rw [startsWith_of_callOver_misses hc hname hmiss] at hopen
    cases hopen

/-- A call at the start of a text holds the arguments of the text behind its parenthesis. -/
theorem callOver_iff (hn : IsName n)
    (hargument : argument.Carries (n ++ ['(']) 1 (Value.shift (n ++ ['(']).length)) :
    callOver s (some argument) (ofText (n ++ ['('] ++ l)) = .matched (.call callee args) rest ↔
      callee = ⟨n, some ⟨0, n.length⟩⟩ ∧
        ∃ found stop, (ofText l).Reaches stop ∧
          arguments s argument (ofText l) = .matched found stop ∧
          args = Value.shiftAll (n ++ ['(']).length found ∧ rest = stop.behind (n ++ ['(']) 0 := by
  have hstart := within_ofText (n ++ ['('] ++ l)
  have hahead : (ofText (n ++ ['('] ++ l)).ahead = n ++ '(' :: l := by simp
  have hopen : ((ofText (n ++ ['('] ++ l)).advance n.length).startsWith ['('] = true :=
    (startsWith_iff (by simp)).mpr ⟨l, hstart.ahead_advance hahead⟩
  have hinside : (((ofText (n ++ ['('] ++ l)).advance n.length).advance 1).nested
      = (ofText l).behind (n ++ ['(']) 1 := by
    rw [ofText_opened]
    exact ext_pos rfl rfl rfl
  have harguments : ∀ {us stop}, arguments s argument ((ofText l).behind (n ++ ['(']) 1)
      = .matched us stop ↔ _ :=
    carries_matched_iff (arguments_carries hargument) (within_ofText l)
  unfold callOver
  rw [name_ofText hn (by decide)]
  dsimp only
  rw [if_pos hopen, hinside]
  constructor
  · intro h
    obtain ⟨us, stop', hus, hcall⟩ := Outcome.bind_matched.mp h
    obtain ⟨found, stop, hreach, hread, rfl, rfl⟩ := harguments.mp hus
    cases hcall
    exact ⟨rfl, found, stop, hreach, hread, rfl, behind_withDepth hreach⟩
  · rintro ⟨rfl, found, stop, hreach, hread, rfl, rfl⟩
    refine Outcome.bind_matched.mpr
      ⟨_, _, harguments.mpr ⟨found, stop, hreach, hread, rfl, rfl⟩, ?_⟩
    exact congrArg _ (behind_withDepth hreach)

end

/-! ## Both values -/

/-- The limit on the nesting is named in failures only. -/
theorem valueAt_settings {s' : Settings} (h : s'.lineComments = s.lineComments) (hc : c.Within)
    (hread : valueAt s levels c = .matched v rest) : valueAt s' levels c = .matched v rest := by
  have hlimits : Limits s Value.nesting levels (valueAt s levels) (valueAt s' levels) :=
    valueAt_limits h (Nat.le_refl levels)
  exact hlimits.of_matched hc hread

theorem commaParts_ne_nil (hc : c.Within) (h : valueAt s levels c = .matched v rest) :
    v.commaParts ≠ [] := by
  obtain ⟨found, hfound, rfl⟩ := map_matched.mp h
  rw [commaParts_of_read hc hfound]
  exact found.toList_ne_nil

/-- A call as the value of a text, and the value that its parentheses hold. -/
theorem parseValue_call_iff {n : List Char} (hn : IsName n) (hnumber : ¬ BeginsWithNumber n)
    (hurl : ¬ CallsUrl n) {url : Option String} {callee : Text} {d : Nat}
    (hdepth : s.maxDepth = d + 1) (hne : args ≠ []) :
    parseValue s ⟨n ++ ['('] ++ cs, url⟩ = .ok (.call callee args) ↔
      callee = ⟨n, some ⟨0, n.length⟩⟩ ∧
        ∃ v, args = Value.shiftAll (n ++ ['(']).length v.commaParts ∧
          ∃ mid t stop, valueAt s d (ofText cs) = .matched v mid ∧
            symbol s [')'] mid = .matched t stop ∧ stop.Nears s.lineComments [] := by
  have hstart := within_ofText cs
  have hwhole := within_ofText (n ++ ['('] ++ cs)
  have hahead : (ofText (n ++ ['('] ++ cs)).ahead = n ++ '(' :: cs := by simp
  have hcall : ∀ {rest : Cursor}, rest.Nears s.lineComments [] →
      (valueAt s (d + 1) (ofText (n ++ ['('] ++ cs)) = .matched (.call callee args) rest ↔ _) :=
    fun hend => (commaListOver_call hend).trans
      ((primitiveOver_call hn hnumber hurl hwhole hahead).trans
        (callOver_iff hn (argument?_carries (d + 1) _ rfl)))
  rw [parseValue_ok_iff, hdepth]
  constructor
  · rintro ⟨rest, hread, hend⟩
    obtain ⟨rfl, found, stop, hreach, hfound, rfl, rfl⟩ := (hcall hend).mp hread
    have hfoundNe : found ≠ [] := fun hnil => hne (by rw [hnil]; rfl)
    obtain ⟨v, mid, t, hv, hclose, rfl⟩ := (arguments_iff hstart hfoundNe).mp hfound
    exact ⟨rfl, v, rfl, mid, t, stop, hv, hclose, (nears_behind (hreach.within hstart)).mp hend⟩
  · rintro ⟨rfl, v, rfl, mid, t, stop, hv, hclose, hend⟩
    have hparen : (symbol s [')']).Advances := symbol_advances (by simp)
    have hmid := (valueAt_advances d _ v mid hstart hv).1
    have hstop := (hparen mid t stop (hmid.within hstart) hclose).1
    have hfound := (arguments_iff hstart (commaParts_ne_nil hstart hv)).mpr
      ⟨v, mid, t, hv, hclose, rfl⟩
    have hreach := hmid.trans hstop
    have hbehind : (stop.behind (n ++ ['(']) 0).Nears s.lineComments [] :=
      (nears_behind (hreach.within hstart)).mpr hend
    exact ⟨_, (hcall hbehind).mpr ⟨rfl, _, stop, hreach, hfound, rfl, rfl⟩, hbehind⟩

/-- **Arguments are lists with commas.** A text is a value exactly if a call with that text in its
parentheses is one that has arguments, with one more level. The arguments are the elements of the
value, further on. -/
theorem parseValue_arguments_iff {n : List Char} (hn : IsName n) (hascii : ∀ x ∈ n, x.toNat < 0x80)
    (hurl : isLowered ['u', 'r', 'l'] n = false) (cs : List Char) (lineComments : Bool) (d : Nat)
    (url url' : Option String) (callee : Text) (args : List Value) :
    (callee = ⟨n, some ⟨0, n.length⟩⟩ ∧
      ∃ v, parseValue ⟨d, lineComments⟩ ⟨cs, url⟩ = .ok v ∧
        args = Value.shiftAll (n.length + 1) v.commaParts) ↔
      args ≠ [] ∧ parseValue ⟨d + 1, lineComments⟩ ⟨n ++ '(' :: cs ++ ['\n', ')'], url'⟩
        = .ok (.call callee args) := by
  have htext : n ++ '(' :: cs ++ ['\n', ')'] = n ++ ['('] ++ (cs ++ ['\n', ')']) := by simp
  have hlength : (n.length + 1 : Int) = (n ++ ['(']).length := by simp
  have hnumber := not_beginsWithNumber hn hascii
  have hcalls : ¬ CallsUrl n := by simp [CallsUrl, hurl]
  rw [htext, hlength]
  constructor
  · rintro ⟨rfl, v, hv, rfl⟩
    obtain ⟨mid, hread, hend⟩ := parseValue_ok_iff.mp hv
    have hdeeper : valueAt ⟨d + 1, lineComments⟩ d (ofText cs) = .matched v mid :=
      valueAt_settings (s := ⟨d, lineComments⟩) rfl (within_ofText cs) hread
    have hparts : Value.shiftAll (n ++ ['(']).length v.commaParts ≠ [] := by
      rw [Value.shiftAll_eq]
      simpa using commaParts_ne_nil (within_ofText cs) hread
    exact ⟨hparts, (parseValue_call_iff hn hnumber hcalls rfl hparts).mpr
      ⟨rfl, v, rfl, valueAt_closed_iff.mp ⟨mid, hdeeper, hend⟩⟩⟩
  · rintro ⟨hne, h⟩
    obtain ⟨rfl, v, rfl, hclosed⟩ := (parseValue_call_iff hn hnumber hcalls rfl hne).mp h
    obtain ⟨mid, hread, hend⟩ := valueAt_closed_iff.mpr hclosed
    have hless : valueAt ⟨d, lineComments⟩ d (ofText cs) = .matched v mid :=
      valueAt_settings (s := ⟨d + 1, lineComments⟩) rfl (within_ofText cs) hread
    exact ⟨rfl, v, parseValue_ok_iff.mpr ⟨mid, hless, hend⟩, rfl⟩

/-- A list with a comment up to the end of the text. -/
theorem list_in_call :
    IsName ['f'] ∧ (∀ x ∈ ['f'], x.toNat < 0x80) ∧ isLowered ['u', 'r', 'l'] ['f'] = false ∧
      parseValue ⟨1, true⟩ ⟨['b', ',', 'c', '/', '/'], none⟩
        = .ok (.list [.identifier ⟨['b'], some ⟨0, 1⟩⟩, .identifier ⟨['c'], some ⟨2, 3⟩⟩] .comma) ∧
      parseValue ⟨2, true⟩ ⟨['f'] ++ '(' :: ['b', ',', 'c', '/', '/'] ++ ['\n', ')'], none⟩
        = .ok (.call ⟨['f'], some ⟨0, 1⟩⟩
          [.identifier ⟨['b'], some ⟨2, 3⟩⟩, .identifier ⟨['c'], some ⟨4, 5⟩⟩]) := by
  have hn : IsName ['f'] := rfl
  have hascii : ∀ x ∈ ['f'], x.toNat < 0x80 := forall_mem_of_all rfl
  have hcall := parseValue_arguments_iff hn hascii rfl ['b', ',', 'c', '/', '/'] true 1 none none
    ⟨['f'], some ⟨0, 1⟩⟩ [.identifier ⟨['b'], some ⟨2, 3⟩⟩, .identifier ⟨['c'], some ⟨4, 5⟩⟩]
  exact ⟨hn, hascii, rfl, rfl, (hcall.mp ⟨rfl, _, rfl, rfl⟩).2⟩

end LessSyntax
