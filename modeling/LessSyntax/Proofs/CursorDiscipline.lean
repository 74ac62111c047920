import LessSyntax.Proofs.GrammarTranslation
import LessSyntax.Proofs.RunEnds
import LessSyntax.Proofs.SeparatedList

/-!
# Where the rules of the grammar stop

Every rule of the grammar stays in its text and never goes back: a match ends there, with as many
blocks and calls open as before, and so does the place that a miss or a failure names. That holds
also for the rules that put a cursor together by hand, such as those for strings, blocks and calls.

All rules but a few match only by reading something. So the loops of the grammar end as they
should: a repetition where its rule misses, and a list where its separator does. No match that
reads nothing ends them, and neither does the bound that they are run with.

* `Rule.Disciplined`: where the outcomes of a rule stand. `Rule.Carries.disciplined`: it follows
  from what is known about reading behind another text.
* `IdleRule`, `EagerRule`: the rules by name, those that may match without reading anything and
  those that may not. `Repeated`, `Separated`: the rules that loops are made of.
* `Rule.Advances.many_run`, `Rule.separated1_run`: the runs of loops.
* `grammar_disciplined`: all rules and all loops of the grammar.
-/

namespace LessSyntax

variable {α β : Type}

/-! ## Discipline -/

/-- The outcome of a rule at the cursor stands in the same text, no further to the front; a match
has as many blocks and calls open. -/
def Outcome.StandsBehind (c : Cursor) : Outcome α → Prop
  | .matched _ rest => c.Precedes rest ∧ rest.depth = c.depth
  | .missed place _ => c.Precedes place
  | .failed place _ _ => c.Precedes place

theorem Cursor.Precedes.trans {c mid place : Cursor} (h : c.Precedes mid)
    (h' : mid.Precedes place) : c.Precedes place :=
  ⟨h'.text.trans h.text, Int.le_trans h.pos_le h'.pos_le, h'.le_size⟩

theorem Cursor.Precedes.within {c place : Cursor} (h : c.Precedes place) (hc : c.Within) :
    place.Within :=
  ⟨Int.le_trans hc.1 h.pos_le, h.le_size⟩

theorem Outcome.StandsBehind.from {outcome : Outcome α} {c mid : Cursor} (hmid : c.Precedes mid)
    (hdepth : mid.depth = c.depth) (h : outcome.StandsBehind mid) : outcome.StandsBehind c := by
  cases outcome with
  | matched v rest => exact ⟨hmid.trans h.1, h.2.trans hdepth⟩
  | missed place expected => exact hmid.trans h
  | failed place expected blamed => exact hmid.trans h

namespace Rule

variable {rule : Rule α} {separator : Rule β} {context : String} {c rest : Cursor}

def Disciplined (rule : Rule α) : Prop := ∀ c : Cursor, c.Within → (rule c).StandsBehind c

/-- Behind the empty text everything stays where it is. -/
theorem Carries.disciplined {move : α → α} (h : rule.Carries [] 0 move) : rule.Disciplined := by
  intro c hc
  have hcarried := h c hc
  generalize rule c = outcome at hcarried ⊢
  generalize rule (c.behind [] 0) = behind at hcarried
  cases hcarried with
  | matched hreach => exact ⟨hreach.precedes hc, hreach.depth⟩
  | missed hplace => exact hplace
  | failed hplace => exact hplace

theorem disciplined_bind {next : α → Rule β} (hrule : rule.Disciplined)
    (hnext : ∀ a, (next a).Disciplined) : Disciplined fun c => (rule c).bind next := by
  intro c hc
  have hfirst := hrule c hc
  show ((rule c).bind next).StandsBehind c
  generalize rule c = outcome at hfirst ⊢
  cases outcome with
  | missed place expected => exact hfirst
  | failed place expected blamed => exact hfirst
  | matched a mid =>
    obtain ⟨hmid, hdepth⟩ := hfirst
    exact (hnext a mid (hmid.within hc)).from hmid hdepth

theorem disciplined_map {f : α → β} (hrule : rule.Disciplined) : (map f rule).Disciplined := by
  intro c hc
  have houtcome := hrule c hc
  unfold map
  generalize rule c = outcome at houtcome ⊢
  cases outcome <;> exact houtcome

theorem disciplined_terminated {after : Rule β} (hrule : rule.Disciplined)
    (hafter : after.Disciplined) : (terminated rule after).Disciplined :=
  disciplined_map (disciplined_bind hrule fun _ => disciplined_map hafter)

/-! ## The runs of loops -/

/-- The values of a repetition are matches of its rule, each of them further on. It ends where the
rule misses. -/
theorem Advances.many_run (hrule : rule.Advances) (hc : c.Within) {vs : List α}
    (h : many rule c = .matched vs rest) :
    ReadsAll (fun c v rest => rule c = .matched v rest ∧ c.pos < rest.pos) c vs rest ∧
      MissesAt rule rest := by
  have hstep : rule.Ensures fun c v rest => rule c = .matched v rest ∧ c.pos < rest.pos :=
    fun c v rest hc hmatch =>
      ⟨(hrule c v rest hc hmatch).1, hmatch, (hrule c v rest hc hmatch).2⟩
  exact ⟨(many_ensures hstep c vs rest hc h).2, many_matched_misses hrule hc h⟩

theorem preceded_matched {before : Rule β} {v : α} (h : preceded before rule c = .matched v rest) :
    ∃ b mid, before c = .matched b mid ∧ rule mid = .matched v rest := by
  rw [preceded_eq] at h
  exact Outcome.bind_matched.mp h

/-- A commitment does not miss, so that a separator with an element behind it misses as the
separator does. -/
theorem misses_of_committed (h : MissesAt (preceded separator (cut rule context)) c) :
    MissesAt separator c := by
  rcases misses_of_both (misses_of_map h) with hmiss | ⟨_, mid, -, hmiss⟩
  · exact hmiss
  · exact absurd hmiss (cut_never_misses rule context mid)

/-- Behind its first element a list goes on with separators and elements, and gets further with
each of them. It ends where the separator misses. -/
theorem separated1_run (hrule : rule.Proceeds) (hseparator : separator.Advances) (hc : c.Within)
    {vs : OneOrMore α} (h : separated1 rule separator context c = .matched vs rest) :
    ∃ mid, rule c = .matched vs.first mid ∧
      ReadsAll (fun c v rest => ∃ mark next, separator c = .matched mark next ∧
        rule next = .matched v rest ∧ c.pos < rest.pos) mid vs.others rest ∧
      MissesAt separator rest := by
  rw [separated1_eq hrule hseparator hc] at h
  obtain ⟨⟨first, others⟩, hboth, rfl⟩ := map_matched.mp h
  obtain ⟨mid, hfirst, hmore⟩ := both_matched.mp hboth
  have hadvances : (preceded separator (cut rule context)).Advances :=
    advances_map (advances_both hseparator (ensures_cut hrule))
  obtain ⟨hrun, hend⟩ := hadvances.many_run ((hrule c first mid hc hfirst).1.within hc) hmore
  refine ⟨mid, hfirst, hrun.mono ?_, misses_of_committed hend⟩
  rintro c v rest ⟨hstep, hpos⟩
  obtain ⟨mark, next, hmark, hvalue⟩ := preceded_matched hstep
  exact ⟨mark, next, hmark, cut_matched.mp hvalue, hpos⟩

end Rule

namespace Grammar

open Rule

/-! ## The rules of the grammar -/

/-- The rules that may match without reading anything. -/
inductive IdleRule (s : Settings) : {α : Type} → Rule α → Prop
  | trivia : IdleRule s (trivia s)
  | endOf (expected : String) : IdleRule s (endOf expected)
  | important : IdleRule s (important s)
  | terminator : IdleRule s (terminator s)
  | segment (quote : Quote) : IdleRule s (segment quote)
  | items : IdleRule s (items s)
  | stylesheet : IdleRule s (stylesheet s)
  | token {α : Type} {rule : Rule α} (h : IdleRule s rule) : IdleRule s (token s rule)
  | whole {α : Type} {rule : Rule α} (h : IdleRule s rule) (expected : String) :
    IdleRule s (whole s rule expected)

inductive LexicalRule (s : Settings) : {α : Type} → Rule α → Prop
  | literal {chars : List Char} (hne : chars ≠ []) : LexicalRule s (literal chars)
  | symbol {chars : List Char} (hne : chars ≠ []) : LexicalRule s (symbol s chars)
  | name : LexicalRule s name
  | atName : LexicalRule s atName

inductive StringRule : {α : Type} → Rule α → Prop
  | stringLiteral {quote : Quote} {q : Char} (hq : Mark quote q) : StringRule (stringLiteral quote)
  | interpolation : StringRule interpolation
  | stringParts {quote : Quote} {q : Char} (hq : Mark quote q) : StringRule (stringParts quote)
  | quotedString : StringRule quotedString

inductive ValueRule (s : Settings) : {α : Type} → Rule α → Prop
  | color : ValueRule s color
  | number : ValueRule s number
  | url : ValueRule s url
  | call : ValueRule s (call s)
  | primitive : ValueRule s (primitive s)
  | slashList : ValueRule s (slashList s)
  | spaceList : ValueRule s (spaceList s)
  | value : ValueRule s (value s)

inductive SelectorRule (s : Settings) : {α : Type} → Rule α → Prop
  | idSelector : SelectorRule s idSelector
  | classSelector : SelectorRule s classSelector
  | typeSelector : SelectorRule s typeSelector
  | universalSelector : SelectorRule s universalSelector
  | simpleSelector : SelectorRule s (simpleSelector s)
  | selectorGroup : SelectorRule s (selectorGroup s)
  | mixinStep : SelectorRule s mixinStep
  | mixinName : SelectorRule s mixinName
  | mixinPath : SelectorRule s (mixinPath s)

/-- What stands before and behind the colon of a declaration and the parentheses of a call counts
as a rule of its own. -/
inductive ItemRule (s : Settings) : {α : Type} → Rule α → Prop
  | emptyParens : ItemRule s (emptyParens s)
  | closeBlock : ItemRule s (closeBlock s)
  | block : ItemRule s (block s)
  | item : ItemRule s (item s)
  | declarationHead : ItemRule s (terminated (token s name) (symbol s [':']))
  | declarationTail : ItemRule s (atLevel s fun levels =>
    cut (both (valueAt s levels) (terminated (important s) (terminator s))) "declaration")
  | declaration : ItemRule s (declaration s)
  | qualifiedRule : ItemRule s (qualifiedRule s)
  | mixinDeclaration : ItemRule s (mixinDeclaration s)
  | mixinCallHead : ItemRule s (terminated (mixinPath s) (emptyParens s))
  | mixinCall : ItemRule s (mixinCall s)
  | ruleset : ItemRule s (ruleset s)
  | variableValue : ItemRule s (variableValue s)
  | variableHead : ItemRule s (terminated (token s atName) (symbol s [':']))
  | variableDeclaration : ItemRule s (variableDeclaration s)
  | variableCallHead : ItemRule s (terminated (token s atName) (emptyParens s))
  | variableCall : ItemRule s (variableCall s)

/-- The rules that match only by reading something. -/
inductive EagerRule (s : Settings) : {α : Type} → Rule α → Prop
  | ofLexical {α : Type} {rule : Rule α} (h : LexicalRule s rule) : EagerRule s rule
  | ofString {α : Type} {rule : Rule α} (h : StringRule rule) : EagerRule s rule
  | ofValue {α : Type} {rule : Rule α} (h : ValueRule s rule) : EagerRule s rule
  | ofSelector {α : Type} {rule : Rule α} (h : SelectorRule s rule) : EagerRule s rule
  | ofItem {α : Type} {rule : Rule α} (h : ItemRule s rule) : EagerRule s rule
  | token {α : Type} {rule : Rule α} (h : EagerRule s rule) : EagerRule s (token s rule)
  | whole {α : Type} {rule : Rule α} (h : EagerRule s rule) (expected : String) :
    EagerRule s (whole s rule expected)

/-- The rules that the grammar repeats. -/
inductive Repeated (s : Settings) : {α : Type} → Rule α → Prop
  | trivia : Repeated s (triviaUnit s)
  | stringPart {quote : Quote} {q : Char} (hq : Mark quote q) : Repeated s (stringPart quote)
  | slashList (levels : Nat) : Repeated s (slashListOver s (argument? s levels))
  | mixinJoint : Repeated s (mixinJoint s)
  | items (levels : Nat) : Repeated s (itemAt s levels)
  | innerItems {levels : Nat} {inner : Rule Item} (h : inner ∈ innerItem? s levels) :
    Repeated s inner

/-- The elements of the lists of the grammar, with what stands between them. -/
inductive Separated (s : Settings) : {α β : Type} → Rule α → Rule β → Prop
  | slashList (levels : Nat) :
    Separated s (primitiveOver s (argument? s levels)) (symbol s ['/'])
  | commaList (levels : Nat) :
    Separated s (spaceListOver s (argument? s levels)) (symbol s [','])
  | arguments {levels : Nat} {argument : Rule Value} (h : argument ∈ argument? s levels) :
    Separated s argument (symbol s [','])
  | selectorGroup : Separated s (simpleSelector s) (symbol s [','])

variable {s : Settings} {rule : Rule α} {separator : Rule β}

/-! ## All of them are disciplined -/

theorem disciplined_atLevel {rule : Nat → Rule α} {move : α → α}
    (h : ∀ levels, (rule levels).Carries [] 0 move) : (atLevel s rule).Disciplined :=
  fun c hc => (h (levelsLeft s c)).disciplined c hc

theorem token_disciplined (hrule : rule.Disciplined) : (token s rule).Disciplined :=
  disciplined_bind trivia_carries.disciplined fun _ => hrule

theorem whole_disciplined (hrule : rule.Disciplined) (expected : String) :
    (whole s rule expected).Disciplined :=
  disciplined_terminated hrule (token_disciplined (carries_endOf expected).disciplined)

theorem items_disciplined : (items s).Disciplined :=
  disciplined_atLevel fun levels => many_carries (itemAt_carries levels)

theorem IdleRule.disciplined (h : IdleRule s rule) : rule.Disciplined := by
  induction h with
  | trivia => exact trivia_carries.disciplined
  | endOf expected => exact (carries_endOf expected).disciplined
  | important => exact important_carries.disciplined
  | terminator => exact terminator_carries.disciplined
  | segment quote => exact (segment_carries quote).disciplined
  | items => exact items_disciplined
  | stylesheet => exact disciplined_map items_disciplined
  | token _ ih => exact token_disciplined ih
  | whole _ expected ih => exact whole_disciplined ih expected

theorem LexicalRule.disciplined (h : LexicalRule s rule) : rule.Disciplined := by
  cases h with
  | literal hne => exact (carries_literal hne).disciplined
  | symbol hne => exact (symbol_carries hne).disciplined
  | name => exact name_carries.disciplined
  | atName => exact atName_carries.disciplined

theorem StringRule.disciplined (h : StringRule rule) : rule.Disciplined := by
  cases h with
  | stringLiteral hq => exact (stringLiteral_carries hq).disciplined
  | interpolation => exact interpolation_carries.disciplined
  | stringParts hq => exact (stringParts_carries hq).disciplined
  | quotedString => exact quotedString_carries.disciplined

theorem ValueRule.disciplined (h : ValueRule s rule) : rule.Disciplined := by
  cases h with
  | color => exact color_carries.disciplined
  | number => exact number_carries.disciplined
  | url => exact url_carries.disciplined
  | call => exact disciplined_atLevel fun levels => callOver_carries (argument?_carries levels)
  | primitive =>
    exact disciplined_atLevel fun levels => primitiveOver_carries (argument?_carries levels)
  | slashList =>
    exact disciplined_atLevel fun levels => slashListOver_carries (argument?_carries levels)
  | spaceList =>
    exact disciplined_atLevel fun levels => spaceListOver_carries (argument?_carries levels)
  | value => exact disciplined_atLevel valueAt_carries

theorem SelectorRule.disciplined (h : SelectorRule s rule) : rule.Disciplined := by
  cases h with
  | idSelector => exact idSelector_carries.disciplined
  | classSelector => exact classSelector_carries.disciplined
  | typeSelector => exact typeSelector_carries.disciplined
  | universalSelector => exact universalSelector_carries.disciplined
  | simpleSelector => exact simpleSelector_carries.disciplined
  | selectorGroup => exact selectorGroup_carries.disciplined
  | mixinStep => exact mixinStep_carries.disciplined
  | mixinName => exact mixinName_carries.disciplined
  | mixinPath => exact mixinPath_carries.disciplined

theorem ItemRule.disciplined (h : ItemRule s rule) : rule.Disciplined := by
  cases h with
  | emptyParens => exact emptyParens_carries.disciplined
  | closeBlock => exact closeBlock_carries.disciplined
  | block => exact disciplined_atLevel fun levels => blockOver_carries (innerItem?_carries levels)
  | item => exact disciplined_atLevel itemAt_carries
  | declarationHead =>
    exact (carries_terminated (token_carries name_carries) (symbol_carries (by simp))).disciplined
  | declarationTail =>
    exact disciplined_atLevel fun levels => carries_cut (carries_both (valueAt_carries levels)
      (carries_terminated important_carries terminator_carries))
  | declaration => exact disciplined_atLevel fun _ => declarationAt_carries
  | qualifiedRule =>
    exact disciplined_atLevel fun levels => qualifiedRuleOver_carries (innerItem?_carries levels)
  | mixinDeclaration =>
    exact disciplined_atLevel fun levels => mixinDeclarationOver_carries (innerItem?_carries levels)
  | mixinCallHead => exact (carries_terminated mixinPath_carries emptyParens_carries).disciplined
  | mixinCall => exact mixinCall_carries.disciplined
  | ruleset =>
    exact disciplined_map (disciplined_atLevel fun levels =>
      blockOver_carries (innerItem?_carries levels))
  | variableValue =>
    exact disciplined_atLevel fun levels => variableValueOver_carries (innerItem?_carries levels)
  | variableHead =>
    exact (carries_terminated (token_carries atName_carries) (symbol_carries (by simp))).disciplined
  | variableDeclaration =>
    exact disciplined_atLevel fun levels =>
      variableDeclarationOver_carries (innerItem?_carries levels)
  | variableCallHead =>
    exact (carries_terminated (token_carries atName_carries) emptyParens_carries).disciplined
  | variableCall => exact variableCall_carries.disciplined

theorem EagerRule.disciplined (h : EagerRule s rule) : rule.Disciplined := by
  induction h with
  | ofLexical h => exact h.disciplined
  | ofString h => exact h.disciplined
  | ofValue h => exact h.disciplined
  | ofSelector h => exact h.disciplined
  | ofItem h => exact h.disciplined
  | token _ ih => exact token_disciplined ih
  | whole _ expected ih => exact whole_disciplined ih expected

/-! ## Most of them advance -/

theorem advances_atLevel {rule : Nat → Rule α} (h : ∀ levels, (rule levels).Advances) :
    (atLevel s rule).Advances :=
  fun c v rest hc hmatch => h (levelsLeft s c) c v rest hc hmatch

theorem LexicalRule.advances (h : LexicalRule s rule) : rule.Advances := by
  cases h with
  | literal hne => exact literal_advances hne
  | symbol hne => exact symbol_advances hne
  | name => exact name_advances
  | atName => exact atName_advances

theorem StringRule.advances (h : StringRule rule) : rule.Advances := by
  cases h with
  | stringLiteral hq => exact stringLiteral_advances hq
  | interpolation => exact interpolation_advances
  | stringParts hq => exact stringParts_advances hq
  | quotedString => exact quotedString_advances

theorem ValueRule.advances (h : ValueRule s rule) : rule.Advances := by
  cases h with
  | color => exact color_advances
  | number => exact number_advances
  | url => exact url_advances
  | call => exact advances_atLevel fun levels => callOver_advances (argument?_proceeds levels)
  | primitive =>
    exact advances_atLevel fun levels => primitiveOver_advances (argument?_proceeds levels)
  | slashList =>
    exact advances_atLevel fun levels => slashListOver_advances (argument?_proceeds levels)
  | spaceList =>
    exact advances_atLevel fun levels => spaceListOver_advances (argument?_proceeds levels)
  | value => exact advances_atLevel valueAt_advances

theorem SelectorRule.advances (h : SelectorRule s rule) : rule.Advances := by
  cases h with
  | idSelector => exact idSelector_advances
  | classSelector => exact classSelector_advances
  | typeSelector => exact typeSelector_advances
  | universalSelector => exact universalSelector_advances
  | simpleSelector => exact simpleSelector_advances
  | selectorGroup => exact selectorGroup_advances
  | mixinStep => exact mixinStep_advances
  | mixinName => exact advances_map mixinStep_advances
  | mixinPath => exact mixinPath_advances

theorem ItemRule.advances (h : ItemRule s rule) : rule.Advances := by
  cases h with
  | emptyParens => exact emptyParens_advances
  | closeBlock => exact closeBlock_advances
  | block => exact advances_atLevel fun levels => blockOver_advances (innerItem?_proceeds levels)
  | item => exact advances_atLevel itemAt_advances
  | declarationHead =>
    exact advances_terminated (token_advances name_advances) (symbol_proceeds (by simp))
  | declarationTail =>
    exact advances_atLevel fun levels => advances_cut (declarationEnd_advances levels)
  | declaration => exact advances_atLevel declarationAt_advances
  | qualifiedRule =>
    exact advances_atLevel fun levels => qualifiedRuleOver_advances (innerItem?_proceeds levels)
  | mixinDeclaration =>
    exact advances_atLevel fun levels => mixinDeclarationOver_advances (innerItem?_proceeds levels)
  | mixinCallHead => exact advances_terminated mixinPath_advances emptyParens_advances.proceeds
  | mixinCall => exact mixinCall_advances
  | ruleset =>
    exact advances_atLevel fun levels =>
      advances_map (blockOver_advances (innerItem?_proceeds levels))
  | variableValue =>
    exact advances_atLevel fun levels => variableValueOver_advances (innerItem?_proceeds levels)
  | variableHead =>
    exact advances_terminated (token_advances atName_advances) (symbol_proceeds (by simp))
  | variableDeclaration =>
    exact advances_atLevel fun levels =>
      variableDeclarationOver_advances (innerItem?_proceeds levels)
  | variableCallHead =>
    exact advances_terminated (token_advances atName_advances) emptyParens_advances.proceeds
  | variableCall => exact variableCall_advances

theorem EagerRule.advances (h : EagerRule s rule) : rule.Advances := by
  induction h with
  | ofLexical h => exact h.advances
  | ofString h => exact h.advances
  | ofValue h => exact h.advances
  | ofSelector h => exact h.advances
  | ofItem h => exact h.advances
  | token _ ih => exact token_advances ih
  | whole _ expected ih =>
    exact advances_terminated ih (token_ensures (endOf_ensures expected)).proceeds

/-! ## The loops -/

theorem Repeated.advances (h : Repeated s rule) : rule.Advances := by
  cases h with
  | trivia => exact triviaUnit_advances
  | stringPart hq => exact stringPart_advances hq
  | slashList levels => exact slashListOver_advances (argument?_proceeds levels)
  | mixinJoint => exact mixinJoint_advances
  | items levels => exact itemAt_advances levels
  | @innerItems levels inner h =>
    cases levels with
    | zero => cases h
    | succ levels =>
      cases h
      exact itemAt_advances levels

theorem Separated.proceeds (h : Separated s rule separator) :
    rule.Proceeds ∧ separator.Advances := by
  cases h with
  | slashList levels =>
    exact ⟨(primitiveOver_advances (argument?_proceeds levels)).proceeds, symbol_advances (by simp)⟩
  | commaList levels =>
    exact ⟨(spaceListOver_advances (argument?_proceeds levels)).proceeds, symbol_advances (by simp)⟩
  | arguments h => exact ⟨argument?_proceeds _ _ h, symbol_advances (by simp)⟩
  | selectorGroup => exact ⟨simpleSelector_advances.proceeds, symbol_advances (by simp)⟩

/-- **Cursor discipline.** Every rule of the grammar stands where it may: a match ends in the same
text, not before its start, with as many blocks and calls open, and a miss or a failure names such
a place as well. Apart from the idle rules, matches read something. So a repetition runs through
matches that each get further and ends where its rule misses; and a list runs through separators
and elements that get further together and ends where the separator misses. -/
theorem grammar_disciplined (s : Settings) :
    (∀ (α : Type) (rule : Rule α), IdleRule s rule ∨ EagerRule s rule → rule.Disciplined) ∧
    (∀ (α : Type) (rule : Rule α), EagerRule s rule →
      ∀ c v rest, c.Within → rule c = .matched v rest → c.pos < rest.pos) ∧
    (∀ (α : Type) (rule : Rule α), Repeated s rule → ∀ c, c.Within →
      (∀ v rest, rule c = .matched v rest → c.pos < rest.pos) ∧
      ∀ vs rest, many rule c = .matched vs rest →
        ReadsAll (fun c v rest => rule c = .matched v rest ∧ c.pos < rest.pos) c vs rest ∧
          MissesAt rule rest) ∧
    ∀ (α β : Type) (rule : Rule α) (separator : Rule β), Separated s rule separator →
      ∀ context c, c.Within →
        (∀ mark next v rest, separator c = .matched mark next → rule next = .matched v rest →
          c.pos < rest.pos) ∧
        ∀ vs rest, separated1 rule separator context c = .matched vs rest →
          ∃ mid, rule c = .matched vs.first mid ∧
            ReadsAll (fun c v rest => ∃ mark next, separator c = .matched mark next ∧
              rule next = .matched v rest ∧ c.pos < rest.pos) mid vs.others rest ∧
            MissesAt separator rest := by
  refine ⟨?_, ?_, ?_, ?_⟩
  · rintro α rule (hidle | heager)
    · exact hidle.disciplined
    · exact heager.disciplined
  · intro α rule h c v rest hc hmatch
    exact (h.advances c v rest hc hmatch).2
  · intro α rule h c hc
    have hadvances := h.advances
    exact ⟨fun v rest hmatch => (hadvances c v rest hc hmatch).2,
      fun vs rest hmany => hadvances.many_run hc hmany⟩
  · intro α β rule separator h context c hc
    obtain ⟨hproceeds, hadvances⟩ := h.proceeds
    refine ⟨fun mark next v rest hmark hmatch => ?_,
      fun vs rest hlist => separated1_run hproceeds hadvances hc hlist⟩
    obtain ⟨hreach, hpos⟩ := hadvances c mark next hc hmark
    exact Int.lt_of_lt_of_le hpos (hproceeds next v rest (hreach.within hc) hmatch).1.pos_le

/-- Two names and a slash: one value, one pass of the repetition and one of the list. -/
theorem slash_list_disciplined :
    ∃ s c rest, c.Within ∧ c.ahead = ['a', '/', 'b', ';'] ∧ rest.ahead = [';'] ∧
      value s c = .matched (.list [.identifier ⟨['a'], some ⟨0, 1⟩⟩,
        .identifier ⟨['b'], some ⟨2, 3⟩⟩] .slash) rest ∧
      c.Precedes rest ∧ rest.depth = c.depth ∧ c.pos < rest.pos ∧
      (∃ vs, many (slashListOver s (argument? s 1)) c = .matched vs rest ∧ vs.length = 1 ∧
        MissesAt (slashListOver s (argument? s 1)) rest) ∧
      ∃ vs, separated1 (primitiveOver s (argument? s 1)) (symbol s ['/']) "value list" c =
        .matched vs rest ∧ vs.others.length = 1 ∧ MissesAt (symbol s ['/']) rest := by
  have hc := Cursor.within_ofText ['a', '/', 'b', ';']
  obtain ⟨hdisciplined, hadvances, hrepeated, hseparated⟩ := grammar_disciplined ⟨1, true⟩
  have hvalue : value ⟨1, true⟩ (.ofText ['a', '/', 'b', ';']) =
      .matched (.list [.identifier ⟨['a'], some ⟨0, 1⟩⟩, .identifier ⟨['b'], some ⟨2, 3⟩⟩] .slash)
        ((Cursor.ofText ['a', '/', 'b', ';']).advance 3) := rfl
  have hstands := hdisciplined _ _ (.inr (.ofValue .value)) _ hc
  rw [hvalue] at hstands
  have hmany := (hrepeated _ _ (.slashList 1) _ hc).2 [_] _ rfl
  have hlist := (hseparated _ _ _ _ (.slashList 1) "value list" _ hc).2 ⟨_, [_]⟩ _ rfl
  obtain ⟨mid, -, -, hend⟩ := hlist
  exact ⟨⟨1, true⟩, _, _, hc, rfl, rfl, hvalue, hstands.1, hstands.2,
    hadvances _ _ (.ofValue .value) _ _ _ hc hvalue, ⟨_, rfl, rfl, hmany.2⟩, _, rfl, rfl, hend⟩

end Grammar

end LessSyntax
