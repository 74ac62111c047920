import LessSyntax.Proofs.Tiles

/-!
# What is read is covered

Every rule of the grammar covers what it reads with the texts of its value. Each relation between
cursors that a rule ensures is turned into a chain of texts and gaps; the texts of lists, calls and
blocks are those of their elements, one after the other.

* `ReadsPrimitive.covers`, `ReadsItem.covers`: values and items.
* `parseStylesheet_tiles`: the texts of a stylesheet tile its source.
-/

namespace LessSyntax.Grammar

open Rule

variable {α : Type} {lineComments : Bool} {c mid rest : Cursor}

/-! ## Gaps -/

theorem SkipsRun.covers (hc : c.Within) (h : SkipsRun lineComments c rest) :
    Covers lineComments c [] rest := by
  obtain ⟨w, hreads, hrun⟩ := h
  exact covers_gap hc hreads (gap_of_run hrun)

theorem covers_mark (lineComments : Bool) {x : Char} (hx : x ∈ gapMarks) (hc : c.Within)
    (h : c.Reads [x] rest) :
    Covers lineComments c [] rest :=
  covers_gap hc h (gap_piece (.mark hx))

theorem ReadsSymbol.covers {x : Char} (hx : x ∈ gapMarks) (hc : c.Within)
    (h : ReadsSymbol lineComments [x] c rest) : Covers lineComments c [] rest := by
  obtain ⟨mid, hskip, hmark⟩ := h
  have hbefore := hskip.covers hc
  exact hbefore.trans (covers_mark _ hx hbefore.within hmark)

theorem ReadsToken.covers {Q : Cursor → α → Cursor → Prop} {v : α} {ts : List Text}
    (hc : c.Within) (h : ReadsToken lineComments Q c v rest)
    (hQ : ∀ mid, mid.Within → Q mid v rest → Covers lineComments mid ts rest) :
    Covers lineComments c ts rest := by
  obtain ⟨mid, hskip, hmid, hread⟩ := h
  exact (hskip.covers hc).trans (hQ mid hmid hread)

/-- The texts of values that are read one after the other. -/
theorem covers_all {Q : Cursor → α → Cursor → Prop} {texts : α → List Text} {as : List α}
    (hc : c.Within) (h : ReadsAll Q c as rest)
    (hQ : ∀ c a rest, c.Within → Q c a rest → Covers lineComments c (texts a) rest) :
    Covers lineComments c (as.flatMap texts) rest := by
  induction h with
  | nil => exact covers_refl hc
  | cons hfirst _ ih =>
    have hcovers := hQ _ _ _ hc hfirst
    rw [List.flatMap_cons]
    exact hcovers.trans (ih hcovers.within)

/-! ## Primitive values -/

theorem ReadsInterpolation.covers (lineComments : Bool) {i : Interpolation} (hc : c.Within)
    (h : ReadsInterpolation c i rest) : Covers lineComments c [i.name] rest := by
  have hopening : ∀ {x : Char} {opened : Cursor}, x ∈ gapMarks → c.Reads [x, '{'] opened →
      Covers lineComments c [] opened := fun hx hopen =>
    covers_gap hc hopen (.cons (.mark hx) (gap_piece (.mark (by decide))))
  cases h with
  | ofVariable hopen hname hclose _ | ofProperty hopen hname hclose _ =>
    have hbefore := hopening (by decide) hopen
    have hleaf := covers_leaf lineComments hbefore.within hname
    exact (hbefore.trans hleaf).gap_after (covers_mark _ (by decide) hleaf.within hclose)

theorem ReadsParts.covers (lineComments : Bool) {quote : Quote}
    {parts : List (Interpolation × Text)} (hc : c.Within) (h : ReadsParts quote c parts rest) :
    Covers lineComments c (parts.flatMap fun part => [part.1.name, part.2]) rest := by
  induction h with
  | nil => exact covers_refl hc
  | cons hpart hsegment _ _ ih =>
    have hname := hpart.covers lineComments hc
    have hleaf := covers_leaf lineComments hname.within hsegment
    exact (hname.trans hleaf).trans (ih hleaf.within)

theorem Mark.mem_gapMarks {quote : Quote} {q : Char} (hq : Mark quote q) : q ∈ gapMarks := by
  cases hq <;> decide

theorem ReadsString.covers (lineComments : Bool) {v : Value} (hc : c.Within)
    (h : ReadsString c v rest) :
    Covers lineComments c v.leaves rest := by
  cases h with
  | plain hq hopen hsegment hclose _ =>
    have hbefore := covers_mark lineComments hq.mem_gapMarks hc hopen
    have hleaf := covers_leaf lineComments hbefore.within hsegment
    exact (hbefore.trans hleaf).gap_after (covers_mark _ hq.mem_gapMarks hleaf.within hclose)
  | interpolated hq hopen hsegment hparts hclose _ _ =>
    have hbefore := covers_mark lineComments hq.mem_gapMarks hc hopen
    have hleaf := covers_leaf lineComments hbefore.within hsegment
    have hinside := hparts.covers lineComments hleaf.within
    exact ((hbefore.trans hleaf).trans hinside).gap_after
      (covers_mark _ hq.mem_gapMarks hinside.within hclose)

theorem ReadsNumber.covers (lineComments : Bool) {v : Value} (hc : c.Within)
    (h : ReadsNumber c v rest) :
    Covers lineComments c v.leaves rest := by
  cases h with
  | plain hvalue _ => exact covers_leaf _ hc hvalue
  | withUnit hvalue hunit _ _ =>
    have hleaf := covers_leaf lineComments hc hvalue
    exact hleaf.trans (covers_leaf _ hleaf.within hunit)

theorem ReadsUrl.covers (lineComments : Bool) {v : Value} (hc : c.Within) (h : ReadsUrl c v rest) :
    Covers lineComments c v.leaves rest := by
  cases h with
  | @intro start stop closed _ callee before address after hcallee hopen haddress hafter hclose
      hblank hblank' _ =>
    have hbefore : Covers lineComments c [] start := by
      apply covers_gap hc hopen
      rw [List.append_cons]
      exact .cons (.url hcallee) (gap_of_run (triviaRun_blanks hblank))
    have hleaf := covers_leaf lineComments hbefore.within haddress
    have hblanks : Covers lineComments stop [] closed :=
      covers_gap hleaf.within hafter (gap_of_run (triviaRun_blanks hblank'))
    exact (hbefore.trans hleaf).gap_after
      (hblanks.trans (covers_mark _ (by decide) hblanks.within hclose))

/-! ## Values -/

/-- The postcondition for values: what is read is covered with the texts of the value. -/
def CoversValue (lineComments : Bool) (c : Cursor) (v : Value) (rest : Cursor) : Prop :=
  c.Within → Covers lineComments c v.leaves rest

theorem ReadsArguments.covers {vs : List Value} (hc : c.Within)
    (h : ReadsArguments lineComments (CoversValue lineComments) c vs rest) :
    Covers lineComments c (vs.flatMap Value.leaves) rest := by
  cases h with
  | none hclose => exact hclose.covers (by decide) hc
  | some hfirst hothers hclose =>
    have hleaves := hfirst hc
    have hmore := covers_all hleaves.within hothers fun c v rest hc ⟨next, hmark, hread⟩ => by
      have hbefore := hmark.covers (by decide) hc
      exact hbefore.trans (hread hbefore.within)
    rw [List.flatMap_cons]
    exact (hleaves.trans hmore).gap_after (hclose.covers (by decide) hmore.within)

theorem ReadsCall.covers {v : Value} (hc : c.Within)
    (h : ReadsCall lineComments (CoversValue lineComments) c v rest) :
    Covers lineComments c v.leaves rest := by
  cases h with
  | intro hname hopen _ hfound _ =>
    have hleaf := covers_leaf lineComments hc hname
    have hparen := covers_mark lineComments (by decide) hleaf.within hopen
    have hinside := hfound.covers hparen.within.nested
    rw [← Value.leavesAll_eq] at hinside
    exact (hleaf.gap_after hparen).trans (hinside.of_nested c.depth)

theorem ReadsPrimitive.covers {v : Value} (hc : c.Within)
    (h : ReadsPrimitive lineComments (CoversValue lineComments) c v rest) :
    Covers lineComments c v.leaves rest := by
  have hmarked : ∀ {x : Char} {start : Cursor} {t : List Char}, x ∈ gapMarks →
      c.Reads [x] start → start.Reads t rest →
      Covers lineComments c [start.next t.length] rest := by
    intro x start t hx hmark hread
    have hbefore := covers_mark lineComments hx hc hmark
    exact hbefore.trans (covers_leaf _ hbefore.within hread)
  cases h with
  | ofString h => exact h.covers _ hc
  | ofColor hmark hhex _ => exact hmarked (by decide) hmark hhex
  | ofNumber h => exact h.covers _ hc
  | ofUrl h => exact h.covers _ hc
  | ofCall _ _ h => exact h.covers hc
  | ofVariable hmark hname _ => exact hmarked (by decide) hmark hname
  | ofProperty hmark hname _ => exact hmarked (by decide) hmark hname
  | ofIdentifier _ hname _ => exact covers_leaf _ hc hname

theorem ReadsList.covers {separator : Separator} {Q : Cursor → Value → Cursor → Prop}
    (hQ : ∀ c v rest, c.Within → Q c v rest → Covers lineComments c v.leaves rest) {v : Value}
    (hc : c.Within) (h : ReadsList lineComments separator Q c v rest) :
    Covers lineComments c v.leaves rest := by
  obtain ⟨⟨first, others⟩, mid, rfl, hfirst, hothers⟩ := h
  have hjoint : ∀ c next, c.Within → ReadsJoint lineComments separator c next →
      Covers lineComments c [] next := by
    intro c next hc hjoint
    cases separator with
    | space =>
      obtain rfl : next = c := hjoint
      exact covers_refl hc
    | slash => exact ReadsSymbol.covers (by decide) hc hjoint
    | comma => exact ReadsSymbol.covers (by decide) hc hjoint
  have hleaves := hQ c first mid hc hfirst
  rw [leaves_collapse, OneOrMore.toList, List.flatMap_cons]
  refine hleaves.trans (covers_all hleaves.within hothers ?_)
  intro c v rest hc ⟨next, hmark, hread⟩
  have hbefore := hjoint c next hc hmark
  exact hbefore.trans (hQ next v rest hbefore.within hread)

theorem ReadsSpaceList.covers {v : Value} (hc : c.Within)
    (h : ReadsSpaceList lineComments (CoversValue lineComments) c v rest) :
    Covers lineComments c v.leaves rest :=
  ReadsList.covers (fun _ _ _ hc h => ReadsList.covers
    (fun _ _ _ hc h => ReadsToken.covers hc h fun _ hmid h => h.covers hmid) hc h) hc h

theorem valueAt_covers (s : Settings) (levels : Nat) :
    (valueAt s levels).Ensures (CoversValue s.lineComments) := by
  have hread : (valueAt s levels).Ensures
      (ReadsValue s.lineComments (CoversValue s.lineComments)) :=
    valueAt_ensures (fun _ _ _ _ _ h hc => ReadsSpaceList.covers hc h) levels
  refine ensures_mono hread fun c v rest _ _ h hc => ?_
  exact ReadsList.covers (fun _ _ _ hc h => ReadsSpaceList.covers hc h) hc h

/-! ## Selectors and endings -/

theorem ReadsName.covers {t : Text} (hc : c.Within) (h : ReadsName c t rest) :
    Covers lineComments c [t] rest := by
  obtain ⟨cs, hreads, -, rfl⟩ := h
  exact covers_leaf _ hc hreads

theorem ReadsAtName.covers {t : Text} (hc : c.Within) (h : ReadsAtName c t rest) :
    Covers lineComments c [t] rest := by
  obtain ⟨start, hmark, hname⟩ := h
  have hbefore := covers_mark lineComments (by decide) hc hmark
  exact hbefore.trans (hname.covers hbefore.within)

theorem ReadsSelector.covers {selector : Selector} (hc : c.Within)
    (h : ReadsSelector c selector rest) : Covers lineComments c [selector.name] rest := by
  cases h with
  | byId hmark hname _ | byClass hmark hname _ =>
    have hbefore := covers_mark lineComments (by decide) hc hmark
    exact hbefore.trans (covers_leaf _ hbefore.within hname)
  | byType hname _ => exact covers_leaf _ hc hname
  | universal hmark => exact covers_leaf _ hc hmark

theorem ReadsSelectors.covers {joint : Cursor → Cursor → Prop} {selectors : OneOrMore Selector}
    (hjoint : ∀ c next, c.Within → joint c next → Covers lineComments c [] next) (hc : c.Within)
    (h : ReadsSelectors lineComments joint c selectors rest) :
    Covers lineComments c (selectors.toList.map Selector.name) rest := by
  obtain ⟨mid, hfirst, hothers⟩ := h
  have hleaf := hfirst.covers hc fun _ hmid h => h.covers hmid
  rw [OneOrMore.toList, List.map_eq_flatMap, List.flatMap_cons]
  refine hleaf.trans (covers_all hleaf.within hothers ?_)
  intro c selector rest hc ⟨next, hmark, hread⟩
  have hbefore := hjoint c next hc hmark
  exact hbefore.trans (hread.covers hbefore.within fun _ hmid h => h.covers hmid)

theorem ReadsGroup.covers {group : SelectorGroup} (hc : c.Within)
    (h : ReadsGroup lineComments c group rest) :
    Covers lineComments c (group.toList.map Selector.name) rest :=
  ReadsSelectors.covers (fun _ _ hc h => h.covers (by decide) hc) hc h

theorem ReadsPath.covers {path : MixinPath} (hc : c.Within)
    (h : ReadsPath lineComments c path rest) :
    Covers lineComments c (path.toList.map Selector.name) rest := by
  refine ReadsSelectors.covers (fun c next hc h => ?_) hc h
  rcases h with rfl | hmark
  · exact covers_refl hc
  · exact hmark.covers (by decide) hc

theorem ReadsEnd.covers (hc : c.Within) (h : ReadsEnd lineComments c rest) :
    Covers lineComments c [] rest := by
  rcases h with hskip | hmark
  · exact hskip.covers hc
  · exact hmark.covers (by decide) hc

theorem ReadsParens.covers (hc : c.Within) (h : ReadsParens lineComments c rest) :
    Covers lineComments c [] rest := by
  obtain ⟨mid, hopen, hclose⟩ := h
  have hbefore := hopen.covers (by decide) hc
  exact hbefore.trans (hclose.covers (by decide) hbefore.within)

/-- The mark, the trivia behind it and the word are one piece. -/
theorem ReadsImportant.covers {marked : Bool} (hc : c.Within)
    (h : ReadsImportant lineComments c marked rest) : Covers lineComments c [] rest := by
  cases h with
  | absent => exact covers_refl hc
  | @present mid start _ word hmark hskip hword his =>
    obtain ⟨bang, hskip', hbang⟩ := hmark
    obtain ⟨w, hreads, hrun⟩ := hskip
    have hbefore := hskip'.covers hc
    have hall : bang.Reads ('!' :: w ++ word) rest := (hbang.trans hreads).trans hword
    rw [hword.ahead] at hrun
    exact hbefore.trans (covers_gap hbefore.within hall (gap_piece (.important hrun his)))

/-! ## Items -/

/-- The postcondition for items. -/
def CoversItem (lineComments : Bool) (c : Cursor) (x : Item) (rest : Cursor) : Prop :=
  c.Within → Covers lineComments c x.leaves rest

theorem ReadsBlock.covers {block : List Item} (hc : c.Within)
    (h : ReadsBlock lineComments (CoversItem lineComments) c block rest) :
    Covers lineComments c (Item.leavesAll block) rest := by
  cases h with
  | intro hopen hitems hclose =>
    have hbrace := hopen.covers (by decide) hc
    have hinside := covers_all hbrace.within.nested hitems fun _ _ _ hc h => h hc
    rw [Item.leavesAll_eq]
    exact hbrace.trans
      ((hinside.gap_after (hclose.covers (by decide) hinside.within)).of_nested c.depth)

theorem ReadsVariableValue.covers {v : Value} (hc : c.Within)
    (h : ReadsVariableValue lineComments (CoversValue lineComments) (CoversItem lineComments) c v
      rest) : Covers lineComments c v.leaves rest := by
  rcases h with ⟨block, rfl, hblock⟩ | hvalue
  · exact hblock.covers hc
  · exact hvalue hc

theorem ReadsItem.covers {x : Item} (hc : c.Within)
    (h : ReadsItem lineComments (CoversValue lineComments) (CoversItem lineComments) c x rest) :
    Covers lineComments c x.leaves rest := by
  cases h with
  | ofDeclaration hname hcolon hvalue hmark hend =>
    have hnamed := hname.covers hc fun _ hmid h => h.covers hmid
    have hbefore := hnamed.gap_after (hcolon.covers (by decide) hnamed.within)
    have hvalued := hbefore.trans (hvalue hbefore.within)
    have hmarked := hvalued.gap_after (hmark.covers hvalued.within)
    exact hmarked.gap_after (hend.covers hmarked.within)
  | ofRule hgroup hblock =>
    have hnamed := hgroup.covers hc
    exact hnamed.trans (hblock.covers hnamed.within)
  | ofMixin hpath hparens hblock =>
    have hnamed := hpath.covers hc
    have hbefore := hnamed.gap_after (hparens.covers hnamed.within)
    exact hbefore.trans (hblock.covers hbefore.within)
  | ofMixinCall hpath hparens hend =>
    have hnamed := hpath.covers hc
    have hcalled := hnamed.gap_after (hparens.covers hnamed.within)
    exact hcalled.gap_after (hend.covers hcalled.within)
  | ofVariable hname hcolon hvalue hend =>
    have hnamed := hname.covers hc fun _ hmid h => h.covers hmid
    have hbefore := hnamed.gap_after (hcolon.covers (by decide) hnamed.within)
    have hvalued := hbefore.trans (hvalue.covers hbefore.within)
    exact hvalued.gap_after (hend.covers hvalued.within)
  | ofVariableCall hname hparens hend =>
    have hnamed := hname.covers hc fun _ hmid h => h.covers hmid
    have hcalled := hnamed.gap_after (hparens.covers hnamed.within)
    exact hcalled.gap_after (hend.covers hcalled.within)

theorem itemAt_covers (s : Settings) (levels : Nat) :
    (itemAt s levels).Ensures (CoversItem s.lineComments) :=
  itemAt_ensures (valueAt_covers s) (fun _ _ _ _ _ h hc => h.covers hc) levels

end LessSyntax.Grammar

namespace LessSyntax

open Grammar Rule

/-! ## Stylesheets -/

theorem endOf_atEnd {expected : String} {c rest : Cursor} {v : Unit}
    (h : endOf expected c = .matched v rest) : rest = c ∧ c.atEnd = true := by
  unfold endOf at h
  split at h
  · rename_i hend
    cases h
    exact ⟨rfl, hend⟩
  · cases h

/-- The texts of a stylesheet, in the order of its fields, tile the source from its start to its
end. -/
theorem parseStylesheet_tiles (s : Settings) (source : Source) {sheet : Stylesheet}
    (h : parseStylesheet s source = .ok sheet) :
    Tiles s.lineComments source.chars 0 sheet.leaves source.chars.length := by
  have hstart := Cursor.within_ofText source.chars
  obtain ⟨rest, stop, hsheet, hend⟩ := parse_matched h
  obtain ⟨xs, hitems, rfl⟩ := map_matched.mp hsheet
  rw [Grammar.items, atLevel_ofText] at hitems
  have hread := (many_ensures (itemAt_covers s s.maxDepth) _ xs rest hstart hitems).2
  have hcovers := covers_all hstart hread fun _ _ _ hc h => h hc
  obtain ⟨_, ended, htrivia, hatEnd⟩ := Outcome.bind_matched.mp hend
  obtain ⟨-, hended⟩ := endOf_atEnd hatEnd
  have hskip := (trivia_ensures rest _ ended hcovers.within htrivia).2
  have hwhole := hcovers.gap_after (hskip.covers hcovers.within)
  have hpos : ended.pos.toNat = source.chars.length := by
    have htext : ended.size = source.chars.length := by
      rw [ended.size_eq, hwhole.text]
      rfl
    have hle := hwhole.within.2
    have hge : (ended.size : Int) ≤ ended.pos := of_decide_eq_true hended
    omega
  have htiles := hwhole.tiles
  rw [hpos] at htiles
  show Tiles _ _ 0 (Item.leavesAll xs) _
  rw [Item.leavesAll_eq]
  exact htiles

/-- A comment, a colon, and the mark and the word of an important value are no texts. -/
theorem declaration_tiles :
    ∃ source sheet,
      source.chars = ['a', '/', '*', '*', '/', ':', '1', 'p', 'x', '!', ' ', 'I', 'm', 'p', 'o',
        'r', 't', 'a', 'n', 't'] ∧
      parseStylesheet ⟨1, true⟩ source = .ok sheet ∧
      sheet.leaves = [⟨['a'], some ⟨0, 1⟩⟩, ⟨['1'], some ⟨6, 7⟩⟩, ⟨['p', 'x'], some ⟨7, 9⟩⟩] ∧
      Tiles true source.chars 0 sheet.leaves source.chars.length := by
  obtain ⟨sheet, hread, hleaves⟩ : ∃ sheet,
      parseStylesheet ⟨1, true⟩ ⟨['a', '/', '*', '*', '/', ':', '1', 'p', 'x', '!', ' ', 'I', 'm',
        'p', 'o', 'r', 't', 'a', 'n', 't'], none⟩ = .ok sheet ∧
      sheet.leaves = [⟨['a'], some ⟨0, 1⟩⟩, ⟨['1'], some ⟨6, 7⟩⟩, ⟨['p', 'x'], some ⟨7, 9⟩⟩] :=
    ⟨_, rfl, rfl⟩
  exact ⟨_, sheet, rfl, hread, hleaves, parseStylesheet_tiles ⟨1, true⟩ _ hread⟩

end LessSyntax
