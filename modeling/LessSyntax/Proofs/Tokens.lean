import LessSyntax.Grammar.Item
import LessSyntax.Proofs.Lexeme.Name
import LessSyntax.Proofs.TriviaRun
import LessSyntax.Tree.Print

/-!
# Tokens of items

An item is written as a sequence of tokens. Any trivia may stand before each of them, so that one
sequence is woven into many texts. A rule accepts a sequence of tokens when it reads every text that
they are woven into.

* `Item.tokens`: the tokens of an item.
* `Woven`: the texts that tokens are woven into.
* `Next`: what stands ahead behind trivia.
* `Rule.AcceptsWoven`, `Rule.RefusesWoven`: rules over tokens, with `accepts_woven_bind`,
  `accepts_woven_both` and `accepts_woven_terminated` to combine them.
-/

namespace LessSyntax

open Grammar

/-! ## Tokens -/

/-- The marks that stand between the other tokens. -/
def tokenMarks : List Char := ['{', '}', '(', ')', ',', '>', ':', ';', '!']

/-- Tokens between braces. -/
def inBraces (tokens : List (List Char)) : List (List Char) := ['{'] :: (tokens ++ [['}']])

mutual

def Item.tokens : Item → List (List Char)
  | .declaration name value important =>
    name.chars :: [':'] :: value.print
      :: (if important then [['!'], importantWord, [';']] else [[';']])
  | .rule selectors block =>
    (selectors.toList.map Selector.print).intersperse [','] ++ inBraces (Item.tokensAll block)
  | .mixin path block =>
    (path.toList.map Selector.print).intersperse ['>']
      ++ ['('] :: [')'] :: inBraces (Item.tokensAll block)
  | .mixinCall path =>
    (path.toList.map Selector.print).intersperse ['>'] ++ [['('], [')'], [';']]
  | .variable name value => ('@' :: name.chars) :: [':'] :: Value.endTokens value
  | .variableCall name => [('@' :: name.chars), ['('], [')'], [';']]

/-- The value of a variable and what ends it: no semicolon stands behind a block. -/
def Value.endTokens : Value → List (List Char)
  | .ruleset block => inBraces (Item.tokensAll block)
  | value => [value.print, [';']]

def Item.tokensAll : List Item → List (List Char)
  | [] => []
  | x :: xs => Item.tokens x ++ Item.tokensAll xs

end

theorem Item.tokensAll_eq (xs : List Item) : Item.tokensAll xs = xs.flatMap Item.tokens := by
  induction xs with
  | nil => rfl
  | cons x xs ih => rw [Item.tokensAll, ih, List.flatMap_cons]

theorem intersperse_cons {α : Type} (mark : α) (a : α) (as : List α) :
    (a :: as).intersperse mark = a :: as.flatMap fun b => [mark, b] := by
  induction as generalizing a with
  | nil => rfl
  | cons b as ih => rw [List.intersperse_cons_cons, ih, List.flatMap_cons]; rfl

/-! ## Woven texts -/

/-- The tokens stand one behind the other in the text, each behind a run of trivia. -/
inductive Woven (lineComments : Bool) : List (List Char) → List Char → List Char → Prop
  | nil {k : List Char} : Woven lineComments [] [] k
  | cons {w token text k : List Char} {tokens : List (List Char)}
    (hrun : TriviaRun lineComments w (token ++ (text ++ k)))
    (hothers : Woven lineComments tokens text k) :
    Woven lineComments (token :: tokens) (w ++ token ++ text) k

namespace Grammar

variable {lineComments : Bool} {text k : List Char} {token : List Char} {t u : List (List Char)}

theorem woven_append (h : Woven lineComments (t ++ u) text k) :
    ∃ a b, text = a ++ b ∧ Woven lineComments t a (b ++ k) ∧ Woven lineComments u b k := by
  induction t generalizing text with
  | nil => exact ⟨[], text, rfl, .nil, h⟩
  | cons token t ih =>
    cases h with
    | @cons w _ rest _ _ hrun hothers =>
      obtain ⟨a, b, rfl, ha, hb⟩ := ih hothers
      refine ⟨w ++ token ++ a, b, (List.append_assoc _ a b).symm, .cons ?_ ha, hb⟩
      rw [← List.append_assoc a]
      exact hrun

/-- A value for each part of the tokens, and what is known about the text behind each of them. -/
theorem spells_of_woven {β : Type} {tokensOf : β → List (List Char)} {F : List Char → Prop}
    {xs : List β} (hF : ∀ x ∈ xs, ∀ a l, Woven lineComments (tokensOf x) a l → F (a ++ l))
    (hk : F k) (h : Woven lineComments (xs.flatMap tokensOf) text k) :
    Rule.Spells (fun x a l => x ∈ xs ∧ Woven lineComments (tokensOf x) a l ∧ F l) xs text k ∧
      F (text ++ k) := by
  suffices hall : ∀ ys, ys ⊆ xs → ∀ text, Woven lineComments (ys.flatMap tokensOf) text k →
      Rule.Spells (fun x a l => x ∈ xs ∧ Woven lineComments (tokensOf x) a l ∧ F l) ys text k ∧
        F (text ++ k) from hall xs (List.Subset.refl _) text h
  intro ys
  induction ys with
  | nil =>
    intro _ text h
    cases h
    exact ⟨.nil, hk⟩
  | cons y ys ih =>
    intro hsub text h
    rw [List.flatMap_cons] at h
    obtain ⟨a, b, rfl, ha, hb⟩ := woven_append h
    have hy := hsub List.mem_cons_self
    obtain ⟨hspells, hbehind⟩ := ih (fun z hz => hsub (List.mem_cons_of_mem _ hz)) b hb
    refine ⟨.cons ⟨hy, ha, hbehind⟩ hspells, ?_⟩
    rw [List.append_assoc]
    exact hF y hy a (b ++ k) ha

/-! ## What stands ahead -/

/-- Behind trivia stands a character with the property, or the text ends. -/
def Next (lineComments : Bool) (p : Char → Prop) (k : List Char) : Prop :=
  ∃ w l, k = w ++ l ∧ TriviaRun lineComments w l ∧ NoTrivia lineComments l ∧ ∀ x ∈ l.head?, p x

/-- The token begins with a character with the property, and not like trivia. -/
def Heads (p : Char → Prop) (token : List Char) : Prop :=
  ∃ x l, token = x :: l ∧ isBlank x = false ∧ x ≠ '/' ∧ p x

variable {p q : Char → Prop}

theorem Next.mono (hpq : ∀ x, p x → q x) (h : Next lineComments p k) : Next lineComments q k := by
  obtain ⟨w, l, hk, hrun, hstop, hp⟩ := h
  exact ⟨w, l, hk, hrun, hstop, fun x hx => hpq x (hp x hx)⟩

theorem Heads.mono (hpq : ∀ x, p x → q x) (h : Heads p token) : Heads q token := by
  obtain ⟨x, l, htoken, hblank, hslash, hp⟩ := h
  exact ⟨x, l, htoken, hblank, hslash, hpq x hp⟩

theorem isBlank_tokenMarks : ∀ x ∈ tokenMarks, isBlank x = false := apart_of_all rfl

theorem heads_mark {x : Char} (hx : x ∈ tokenMarks) (hp : p x) : Heads p [x] := by
  refine ⟨x, [], rfl, isBlank_tokenMarks x hx, ?_, hp⟩
  rintro rfl
  exact absurd hx (by decide)

/-- A name character is no trivia. -/
theorem heads_name {cs : List Char} (h : IsName cs) : Heads (isNameChar · = true) cs := by
  obtain ⟨x, l, rfl, hx⟩ := h.cons
  refine ⟨x, l, rfl, Bool.eq_false_iff.mpr fun hblank => ?_, ne_of_class hx rfl, hx⟩
  exact notMem_of_apart isNameChar_boundary hx (isBlank_mem_boundaryChars hblank)

theorem Heads.ne_nil (h : Heads p token) : token ≠ [] := by
  obtain ⟨x, l, rfl, -⟩ := h
  exact List.cons_ne_nil x l

theorem Heads.noTrivia (h : Heads p token) (l : List Char) :
    NoTrivia lineComments (token ++ l) := by
  obtain ⟨x, m, rfl, hblank, hslash, -⟩ := h
  exact noTrivia_cons hblank hslash

/-- At the end of the text only trivia stands ahead. -/
theorem next_of_run (h : TriviaRun lineComments k []) : Next lineComments p k :=
  ⟨k, [], (List.append_nil k).symm, h, noTrivia_nil, by simp⟩

theorem woven_next (h : Woven lineComments (token :: t) text k) (hheads : Heads p token) :
    Next lineComments p (text ++ k) := by
  cases h with
  | @cons w _ rest _ _ hrun _ =>
    refine ⟨w, token ++ (rest ++ k), by simp only [List.append_assoc], hrun, hheads.noTrivia _, ?_⟩
    obtain ⟨x, l, rfl, -, -, hp⟩ := hheads
    exact head_cons hp

/-- Before a mark that is the next token there is nothing but trivia. -/
theorem woven_next_mark {x : Char} (h : Woven lineComments ([x] :: t) text k)
    (hx : x ∈ tokenMarks) (hp : p x) : Next lineComments p (text ++ k) :=
  woven_next h (heads_mark hx hp)

theorem woven_ne_nil (h : Woven lineComments (token :: t) text k) (htoken : token ≠ []) :
    text ≠ [] := by
  cases h
  exact List.append_ne_nil_of_left_ne_nil (List.append_ne_nil_of_right_ne_nil _ htoken) _

/-- Neither trivia nor what stands behind it begins with a character of the class. -/
theorem Next.stops {isIn : Char → Bool} (hclass : ∀ x ∈ boundaryChars, isIn x = false)
    (h : Next lineComments (isIn · = false) k) : ∀ x ∈ k.head?, isIn x = false := by
  obtain ⟨w, l, rfl, hrun, -, hl⟩ := h
  cases hrun with
  | nil => exact hl
  | @cons u w _ hpiece _ =>
    intro x hx
    have hmem : x ∈ boundaryChars := by
      rw [List.append_assoc] at hx
      generalize w ++ l = m at hpiece hx
      cases hpiece with
      | blank hb =>
        cases hx
        exact isBlank_mem_boundaryChars hb
      | block _ | line _ _ | lastLine _ _ =>
        cases hx
        decide
    exact hclass x hmem

end Grammar

/-! ## Rules over tokens -/

namespace Rule

variable {α β : Type} {s : Settings} {lineComments : Bool} {rule : Rule α} {P : α → Prop}
  {Q : β → Prop} {cs k : List Char} {t u : List (List Char)}

/-- The rule reads every text that the tokens are woven into, before `k`. -/
def AcceptsWoven (rule : Rule α) (lineComments : Bool) (t : List (List Char)) (k : List Char)
    (P : α → Prop) : Prop :=
  ∀ text, Woven lineComments t text k → rule.Accepts text k P

/-- The rule misses wherever a text is ahead that the tokens are woven into, and then `k`. -/
def RefusesWoven (rule : Rule α) (lineComments : Bool) (t : List (List Char)) (k : List Char) :
    Prop :=
  ∀ text, Woven lineComments t text k → rule.Refuses (text ++ k)

theorem accepts_woven_bind {next : α → Rule β}
    (hrule : ∀ b, Woven lineComments u b k → rule.AcceptsWoven lineComments t (b ++ k) P)
    (hnext : ∀ a, P a → (next a).AcceptsWoven lineComments u k Q) :
    AcceptsWoven (fun c => (rule c).bind next) lineComments (t ++ u) k Q := by
  intro text h
  obtain ⟨a, b, rfl, ha, hb⟩ := woven_append h
  exact accepts_bind (hrule b hb a ha) fun v hv => hnext v hv b hb

theorem accepts_woven_both {second : Rule β}
    (hrule : ∀ b, Woven lineComments u b k → rule.AcceptsWoven lineComments t (b ++ k) P)
    (hsecond : second.AcceptsWoven lineComments u k Q) :
    (both rule second).AcceptsWoven lineComments (t ++ u) k fun v => P v.1 ∧ Q v.2 := by
  intro text h
  obtain ⟨a, b, rfl, ha, hb⟩ := woven_append h
  exact accepts_both (hrule b hb a ha) (hsecond b hb)

theorem accepts_woven_terminated {after : Rule β}
    (hrule : ∀ b, Woven lineComments u b k → rule.AcceptsWoven lineComments t (b ++ k) P)
    (hafter : after.AcceptsWoven lineComments u k Q) :
    (terminated rule after).AcceptsWoven lineComments (t ++ u) k P := by
  intro text h
  obtain ⟨a, b, rfl, ha, hb⟩ := woven_append h
  exact accepts_terminated (hrule b hb a ha) (hafter b hb)

theorem accepts_woven_token {p : Char → Prop} (hheads : Heads p cs) (hrule : rule.Accepts cs k P) :
    (token s rule).AcceptsWoven s.lineComments [cs] k P := by
  intro text h
  cases h with
  | cons hrun hothers =>
    cases hothers
    rw [List.append_nil]
    exact accepts_token hrun (hheads.noTrivia k) hrule

theorem accepts_woven_symbol {x : Char} (hx : x ∈ tokenMarks) :
    (symbol s [x]).AcceptsWoven s.lineComments [[x]] k fun _ => True :=
  accepts_woven_token (p := fun _ => True) (heads_mark hx trivial)
    (accepts_mono (accepts_literal (by simp)) fun _ _ => trivial)

/-- A rule behind trivia misses where it misses every text that may stand ahead. -/
theorem token_refuses_next {p : Char → Prop} (hrule : ∀ l, (∀ x ∈ l.head?, p x) → rule.Refuses l)
    (h : Next s.lineComments p k) : (token s rule).Refuses k := by
  obtain ⟨w, l, rfl, hrun, hstop, hl⟩ := h
  exact token_refuses hrun hstop (hrule l hl)

theorem symbol_refuses_next {x : Char} (h : Next s.lineComments (· ≠ x) k) :
    (symbol s [x]).Refuses k := by
  refine token_refuses_next (fun l hl => literal_refuses (by simp) ?_) h
  rintro ⟨m, rfl⟩
  exact hl x rfl rfl

end Rule

end LessSyntax
