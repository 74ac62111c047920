import LessSyntax.Proofs.Agreement
import LessSyntax.Proofs.RunEnds
import LessSyntax.Proofs.Tokens

/-!
# Two texts that begin alike

A rule is run on two texts with a common beginning. They go on differently, but only with what
may stand behind an item: with a newline and a closing brace, with nothing, or, after the same
semicolon or brace, with any other text or with none. Or the second text lacks the last semicolon
of the first one. Behind a value the closing mark may be that of a call instead.

* `Tails`: how the two texts go on.
* `InStep`: the cursors of the two runs while they read the common beginning.
* `trivia_inStep`: skipping trivia keeps them in step.
* `agrees_token`: a rule with trivia before it agrees where the rule agrees within the common
  beginning, provided it can begin neither with a semicolon nor with a closing mark.
-/

namespace LessSyntax

open Grammar

/-- What stands behind the common beginning of two texts. -/
inductive Tails (lineComments : Bool) where
  /-- Only the second text goes on, with the end of a block or of a call. -/
  | closed (mark : Char) (hmark : mark = '}' ∨ mark = ')')
  /-- Only the first text goes on, with the end of a block. -/
  | opened
  /-- Both go on with the end of an item, and the second one goes on behind it. -/
  | joined (mark : Char) (others : List Char) (hmark : mark = ';' ∨ mark = '}')
    (hothers : Next lineComments (· ≠ ';') others)
  /-- The first text goes on with a semicolon, and behind it as the second one does. -/
  | dropped (others : List Char) (hothers : others = [] ∨ others = ['}'])

namespace Tails

variable {lineComments : Bool}

@[simp]
def first : Tails lineComments → List Char
  | closed .. => []
  | opened => ['\n', '}']
  | joined mark _ _ _ => [mark]
  | dropped others _ => ';' :: others

@[simp]
def second : Tails lineComments → List Char
  | closed mark _ => ['\n', mark]
  | opened => []
  | joined mark others _ _ => mark :: others
  | dropped others _ => others

/-- Whether the second text joins another one behind the given end of an item. -/
def Joins : Tails lineComments → Char → Prop
  | joined mark _ _ _, x => mark = x
  | _, _ => False

/-- Whether the second text lacks a semicolon. -/
def Drops : Tails lineComments → Prop
  | dropped .. => True
  | _ => False

/-- Whether the first run cannot go through its whole text inside a block that was opened in the
common beginning. -/
def Doomed : Tails lineComments → Prop
  | opened => True
  | _ => False

/-- The mark that may be left in one of the texts behind trivia. -/
def closer : Tails lineComments → Char
  | closed mark _ => mark
  | _ => '}'

/-- No text goes on with the end of a call, so that items may be read. -/
class Braced (tails : Tails lineComments) : Prop where
  closer_eq : tails.closer = '}'

instance : (closed '}' (.inl rfl) : Tails lineComments).Braced := ⟨rfl⟩

instance : (opened : Tails lineComments).Braced := ⟨rfl⟩

instance (mark : Char) (others : List Char) (hmark : mark = ';' ∨ mark = '}')
    (hothers : Next lineComments (· ≠ ';') others) :
    (joined mark others hmark hothers : Tails lineComments).Braced := ⟨rfl⟩

instance (others : List Char) (hothers : others = [] ∨ others = ['}']) :
    (dropped others hothers : Tails lineComments).Braced := ⟨rfl⟩

/-- What the two texts may begin with behind the common beginning. -/
@[simp]
def marks : List Char := ['\n', ';', '}']

/-- What is left in the two texts when a run of trivia has reached over the common beginning. -/
def Ends : Tails lineComments → List Char → List Char → Prop
  | closed mark _, l, l' => l = [] ∧ l' = [mark]
  | opened, l, l' => l = ['}'] ∧ l' = []
  | joined .., _, _ => False
  | dropped .., l, l' => (l = [] ∨ l = ['}']) ∧ l' = l

theorem Joins.first {tails : Tails lineComments} {x : Char} (h : tails.Joins x) :
    tails.first = [x] := by
  cases tails with
  | joined => exact congrArg (fun mark => [mark]) h
  | closed | opened | dropped => exact h.elim

/-- Of the end of a call nothing is left in the first text. -/
theorem Ends.first {tails : Tails lineComments} {l l' : List Char} (h : tails.Ends l l') :
    l = [] ∨ l = ['}'] := by
  cases tails with
  | closed => exact .inl h.1
  | opened => exact .inr h.1
  | joined => exact h.elim
  | dropped => exact h.1

theorem Ends.nil_or_closer {tails : Tails lineComments} {l l' : List Char} (h : tails.Ends l l') :
    (l = [] ∨ l = [tails.closer]) ∧ (l' = [] ∨ l' = [tails.closer]) := by
  cases tails with
  | closed => exact ⟨.inl h.1, .inr h.2⟩
  | opened => exact ⟨.inr h.1, .inl h.2⟩
  | joined => exact h.elim
  | dropped =>
    obtain ⟨hl, rfl⟩ := h
    exact ⟨hl, hl⟩

theorem Ends.nil_or_brace {tails : Tails lineComments} [hbraced : tails.Braced] {l l' : List Char}
    (h : tails.Ends l l') : (l = [] ∨ l = ['}']) ∧ (l' = [] ∨ l' = ['}']) := by
  have hends := h.nil_or_closer
  rwa [hbraced.closer_eq] at hends

variable (tails : Tails lineComments)

theorem closer_cases : tails.closer = '}' ∨ tails.closer = ')' := by
  cases tails with
  | closed mark hmark => exact hmark
  | opened | joined | dropped => exact .inl rfl

theorem mem_first : ∀ x ∈ tails.first, x ∈ marks := by
  cases tails with
  | closed => simp
  | opened => simp
  | joined mark _ hmark _ => simpa using Or.inr hmark
  | dropped _ hothers => rcases hothers with rfl | rfl <;> simp

theorem head?_second : ∀ x ∈ tails.second.head?, x ∈ marks := by
  cases tails with
  | closed => simp
  | opened => simp
  | joined mark _ hmark _ => simpa using Or.inr hmark
  | dropped _ hothers => rcases hothers with rfl | rfl <;> simp

theorem head?_first : ∀ x ∈ tails.first.head?, x ∈ marks :=
  fun x hx => tails.mem_first x (List.mem_of_mem_head? hx)

theorem marks_subset : marks ⊆ boundaryChars := by decide

theorem boundary_first : Boundary tails.first := fun x hx => marks_subset (tails.head?_first x hx)

theorem boundary_second : Boundary tails.second :=
  fun x hx => marks_subset (tails.head?_second x hx)

end Tails

/-! ## Cursors of the two runs -/

namespace Cursor

variable {lineComments : Bool} {tails : Tails lineComments} {k : List Char} {c c' : Cursor}

/-- The cursors stand at the same place of the common beginning, before the rest `k` of it. A
comment up to the end of its line cannot reach over the end of an item to another text there. -/
structure Abreast (tails : Tails lineComments) (k : List Char) (c c' : Cursor) : Prop where
  within : c.Within
  within' : c'.Within
  pos : c'.pos = c.pos
  ahead : c.ahead = k ++ tails.first
  ahead' : c'.ahead = k ++ tails.second
  lines : ∀ mark, tails.Joins mark → lineComments = true → ¬ ['/', '/'] <:+: k

/-- The same without the rest of the common beginning. -/
def Alongside (tails : Tails lineComments) (c c' : Cursor) : Prop := ∃ k, Abreast tails k c c'

/-- The same, and not at the semicolon that only the first text has. -/
def Alike (tails : Tails lineComments) (c c' : Cursor) : Prop :=
  ∃ k, Abreast tails k c c' ∧ (k = [] → ¬ tails.Drops)

/-- Nothing but trivia stands before the given end of the text. -/
def Nears (lineComments : Bool) (c : Cursor) (l : List Char) : Prop :=
  c.Within ∧ ∃ w, c.ahead = w ++ l ∧ TriviaRun lineComments w l

/-- The common beginning is used up, trivia apart. The places may differ. -/
def Spent (tails : Tails lineComments) (c c' : Cursor) : Prop :=
  ∃ l l', tails.Ends l l' ∧ Nears lineComments c l ∧ Nears lineComments c' l'

/-- The cursors while the two runs read the common beginning. -/
def InStep (tails : Tails lineComments) (c c' : Cursor) : Prop :=
  Alongside tails c c' ∨ Spent tails c c'

/-- Both runs have read the end of an item behind the common beginning. The first one is at the
end of its text. -/
structure Past (tails : Tails lineComments) (c c' : Cursor) : Prop where
  within : c.Within
  within' : c'.Within
  pos : c'.pos = c.pos
  ahead : c.ahead = []
  ahead' : ∃ mark, tails.Joins mark ∧ tails.second = mark :: c'.ahead

/-- The cursors behind an item. -/
def BehindItem (tails : Tails lineComments) (c c' : Cursor) : Prop :=
  InStep tails c c' ∨ Past tails c c'

theorem Spent.within (h : Spent tails c c') : c.Within ∧ c'.Within := by
  obtain ⟨_, _, -, h, h'⟩ := h
  exact ⟨h.1, h'.1⟩

theorem InStep.within (h : InStep tails c c') : c.Within ∧ c'.Within := by
  rcases h with ⟨k, h⟩ | h
  · exact ⟨h.within, h.within'⟩
  · exact h.within

theorem Alike.alongside (h : Alike tails c c') : Alongside tails c c' := h.imp fun _ => And.left

/-- Either the texts go on alike, or the first one goes on with the semicolon that the second one
lacks. -/
theorem Abreast.alike_or (h : Abreast tails k c c') :
    Alike tails c c' ∨ Abreast tails [] c c' ∧ tails.Drops := by
  by_cases hdrops : k = [] ∧ tails.Drops
  · obtain ⟨rfl, hdrops⟩ := hdrops
    exact .inr ⟨h, hdrops⟩
  · exact .inl ⟨k, h, fun hnil hd => hdrops ⟨hnil, hd⟩⟩

theorem Alongside.inStep (h : Alongside tails c c') : InStep tails c c' := .inl h

/-! How many blocks and calls are open does not count. -/

theorem Abreast.withDepth (h : Abreast tails k c c') (depth depth' : Int) :
    Abreast tails k (c.withDepth depth) (c'.withDepth depth') :=
  ⟨h.within, h.within', h.pos, h.ahead, h.ahead', h.lines⟩

theorem InStep.withDepth (h : InStep tails c c') (depth depth' : Int) :
    InStep tails (c.withDepth depth) (c'.withDepth depth') := by
  rcases h with ⟨k, h⟩ | h
  · exact .inl ⟨k, h.withDepth depth depth'⟩
  · exact .inr h

theorem BehindItem.withDepth (h : BehindItem tails c c') (depth depth' : Int) :
    BehindItem tails (c.withDepth depth) (c'.withDepth depth') := by
  rcases h with h | h
  · exact .inl (h.withDepth depth depth')
  · exact .inr ⟨h.within, h.within', h.pos, h.ahead, h.ahead'⟩

/-! ## Reading within the common beginning -/

theorem Abreast.advance (h : Abreast tails k c c') {count : Nat} (hcount : count ≤ k.length) :
    Abreast tails (k.drop count) (c.advance count) (c'.advance count) where
  within := h.within.advance (by rw [h.ahead, List.length_append]; omega)
  within' := h.within'.advance (by rw [h.ahead', List.length_append]; omega)
  pos := by rw [pos_advance, pos_advance, h.pos]
  ahead := by rw [ahead_advance h.within.1, h.ahead, List.drop_append_of_le_length hcount]
  ahead' := by rw [ahead_advance h.within'.1, h.ahead', List.drop_append_of_le_length hcount]
  lines mark hmark hallowed hline :=
    h.lines mark hmark hallowed (hline.trans (List.drop_suffix count k).isInfix)

theorem next_eq (hc : c.Within) (count : Nat) :
    c.next count = ⟨c.ahead.take count, some ⟨c.pos, c.pos + count⟩⟩ := by
  rw [← chars_next hc.1]
  rfl

theorem Abreast.next (h : Abreast tails k c c') {count : Nat} (hcount : count ≤ k.length) :
    c'.next count = c.next count := by
  rw [next_eq h.within, next_eq h.within', h.pos, h.ahead, h.ahead',
    List.take_append_of_le_length hcount, List.take_append_of_le_length hcount]

end Cursor

namespace Grammar

open Rule Cursor

variable {α : Type} {lineComments : Bool} {k l : List Char}

/-- Characters that a text may go on with are none of a text that stands at its beginning. -/
theorem prefix_of_append {chars : List Char} (hl : ∀ x ∈ l.head?, x ∉ chars)
    (h : chars <+: k ++ l) : chars <+: k := by
  rcases Nat.le_total chars.length k.length with hle | hle
  · exact List.prefix_of_prefix_length_le h (List.prefix_append k l) hle
  · obtain ⟨others, rfl⟩ := List.prefix_of_prefix_length_le (List.prefix_append k l) h hle
    have hothers : others <+: l := (List.prefix_append_right_inj k).mp h
    cases others with
    | nil => simp
    | cons x others =>
      obtain ⟨m, rfl⟩ := hothers
      exact absurd (by simp) (hl x rfl)

/-! ## Trivia -/

/-- Where trivia ends in one of the texts, it ends there in the other one. -/
theorem noTrivia_second {tails : Tails lineComments} (hk : k ++ tails.first ≠ [])
    (h : NoTrivia lineComments (k ++ tails.first)) : NoTrivia lineComments (k ++ tails.second) := by
  have hapart : ∀ {opening : List Char}, (∀ x ∈ Tails.marks, x ∉ opening) →
      opening <+: k ++ tails.second → opening <+: k ++ tails.first := by
    intro opening hmarks hopen
    have hbegins := prefix_of_append (fun x hx => hmarks x (tails.head?_second x hx)) hopen
    exact hbegins.trans (List.prefix_append k tails.first)
  refine ⟨?_, fun hopen => h.block (hapart (by simp) hopen),
    fun hallowed hopen => h.line hallowed (hapart (by simp) hopen)⟩
  cases k with
  | cons x k => exact h.blank
  | nil =>
    cases tails with
    | closed => exact absurd rfl hk
    | opened => exact absurd (h.blank '\n' rfl) (by decide)
    | joined mark others hmark _ =>
      rcases hmark with rfl | rfl <;> simp [isBlank]
    | dropped others hothers =>
      rcases hothers with rfl | rfl <;> simp [isBlank]

/-- The cursors where the trivia before a token ends. -/
inductive Arrived : Tails lineComments → Cursor → Cursor → Prop
  | alike {tails : Tails lineComments} {c c' : Cursor} (h : Alike tails c c')
    (hstop : NoTrivia lineComments c.ahead) (hstop' : NoTrivia lineComments c'.ahead) :
    Arrived tails c c'
  | dropping {others : List Char} {hothers : others = [] ∨ others = ['}']} {c c' : Cursor}
    (h : Abreast (.dropped others hothers : Tails lineComments) [] c c') :
    Arrived (.dropped others hothers) c c'
  | spent {tails : Tails lineComments} {l l' : List Char} {c c' : Cursor} (hends : tails.Ends l l')
    (hc : c.Within) (hc' : c'.Within) (h : c.ahead = l) (h' : c'.ahead = l') : Arrived tails c c'

variable {s : Settings} {rule : Rule α} {tails : Tails s.lineComments} {c c' : Cursor}

theorem noTrivia_brace : NoTrivia lineComments ['}'] := noTrivia_cons (by decide) (by decide)

theorem noTrivia_closer (tails : Tails lineComments) : NoTrivia lineComments [tails.closer] := by
  rcases tails.closer_cases with h | h <;> rw [h] <;>
    exact noTrivia_cons (by decide) (by decide)

theorem noTrivia_end (hl : l = [] ∨ l = [tails.closer]) : NoTrivia s.lineComments l := by
  rcases hl with rfl | rfl
  · exact noTrivia_nil
  · exact noTrivia_closer tails

theorem trivia_nears (h : c.Nears s.lineComments l) (hstop : NoTrivia s.lineComments l) :
    ∃ rest, trivia s c = .matched () rest ∧ rest.Within ∧ rest.ahead = l := by
  obtain ⟨hc, w, hahead, hrun⟩ := h
  obtain ⟨v, hv, -⟩ := accepts_trivia hrun hstop c hc hahead
  have hreads := hc.reads hahead
  exact ⟨_, hv, hreads.within hc, hc.ahead_advance hahead⟩

theorem nears_of_trivia {rest : Cursor} {l : List Char} (hc : c.Within)
    (h : trivia s c = .matched () rest) (hahead : rest.ahead = l) : c.Nears s.lineComments l := by
  obtain ⟨-, w, hreads, hrun⟩ := trivia_ensures c () rest hc h
  exact ⟨hc, w, hahead ▸ hreads.ahead, hahead ▸ hrun⟩

theorem nears_self {l : List Char} (hc : c.Within) (hahead : c.ahead = l) :
    c.Nears s.lineComments l :=
  ⟨hc, [], hahead, .nil⟩

theorem trivia_spent (h : Spent tails c c') :
    ∃ rest rest', trivia s c = .matched () rest ∧ trivia s c' = .matched () rest' ∧
      Arrived tails rest rest' := by
  obtain ⟨l, l', hends, h, h'⟩ := h
  obtain ⟨rest, hrest, hwithin, hahead⟩ := trivia_nears h (noTrivia_end hends.nil_or_closer.1)
  obtain ⟨rest', hrest', hwithin', hahead'⟩ := trivia_nears h' (noTrivia_end hends.nil_or_closer.2)
  exact ⟨rest, rest', hrest, hrest', .spent hends hwithin hwithin' hahead hahead'⟩

theorem not_mem_lastLine {v inner : List Char} (h : k ++ ['\n'] = v ++ '/' :: '/' :: inner)
    (hline : '\n' ∉ inner) : False := by
  rcases List.eq_nil_or_concat inner with rfl | ⟨inner, x, rfl⟩
  · exact absurd (last_eq_of_append (u := ['/']) h).2 (by decide)
  · rw [List.concat_eq_append] at h hline
    obtain ⟨-, rfl⟩ := last_eq_of_append (u := '/' :: '/' :: inner) h
    simp at hline

/-- Trivia that ends before the common beginning does. -/
theorem trivia_inside {w : List Char} (h : Abreast tails (w ++ k) c c')
    (hrun : TriviaRun s.lineComments w (k ++ tails.first))
    (hstop : NoTrivia s.lineComments (k ++ tails.first)) (hne : k ++ tails.first ≠ []) :
    trivia s c' = .matched () (c'.advance w.length) ∧
      Arrived tails (c.advance w.length) (c'.advance w.length) := by
  have hstop' := noTrivia_second hne hstop
  have hahead' : c'.ahead = w ++ (k ++ tails.second) := by rw [h.ahead', List.append_assoc]
  obtain ⟨v, hv, -⟩ := accepts_trivia (hrun.before_any hne _) hstop' c' h.within' hahead'
  have hrest : Abreast tails ((w ++ k).drop w.length) (c.advance w.length)
      (c'.advance w.length) := h.advance (by simp)
  rw [List.drop_left] at hrest
  refine ⟨hv, ?_⟩
  rcases hrest.alike_or with halike | ⟨hrest, hdrops⟩
  · refine .alike halike ?_ ?_
    · rw [hrest.ahead]
      exact hstop
    · rw [hrest.ahead']
      exact hstop'
  · cases tails with
    | dropped => exact .dropping hrest
    | closed | opened | joined => exact hdrops.elim

/-- Trivia up to the end of the first text ends behind the newline in the second one. -/
theorem trivia_closed {mark : Char} {hmark : mark = '}' ∨ mark = ')'}
    (h : Abreast (.closed mark hmark : Tails s.lineComments) k c c')
    (hrun : TriviaRun s.lineComments k []) :
    ∃ rest', trivia s c' = .matched () rest' ∧
      Arrived (.closed mark hmark : Tails s.lineComments) (c.advance k.length) rest' := by
  have hrest := h.advance (Nat.le_refl k.length)
  have hnears : c'.Nears s.lineComments [mark] :=
    ⟨h.within', k ++ ['\n'], by rw [h.ahead', List.append_assoc]; rfl, hrun.add_newline _⟩
  have hstop : NoTrivia s.lineComments [mark] := noTrivia_closer (.closed mark hmark)
  obtain ⟨rest', hrest', hwithin', hahead'⟩ := trivia_nears hnears hstop
  refine ⟨rest', hrest', .spent ⟨rfl, rfl⟩ hrest.within hwithin' ?_ hahead'⟩
  rw [hrest.ahead, List.drop_length]
  rfl

/-- Trivia that reaches over the common beginning ends behind the newline, since the brace does not
belong to a comment that the newline has ended. -/
theorem trivia_opened {beyond : List Char} (hbeyond : beyond ≠ [])
    (h : Abreast (.opened : Tails s.lineComments) k c c') (hsplit : ['\n', '}'] = beyond ++ l)
    (hrun : TriviaRun s.lineComments (k ++ beyond) l) :
    ∃ rest', trivia s c' = .matched () rest' ∧
      Arrived (.opened : Tails s.lineComments) (c.advance (k ++ beyond).length) rest' := by
  have hahead : c.ahead = k ++ beyond ++ l := by
    rw [h.ahead, List.append_assoc, ← hsplit]
    rfl
  have hcases : beyond = ['\n'] ∧ l = ['}'] ∨ beyond = ['\n', '}'] ∧ l = [] := by
    obtain ⟨x, beyond, rfl⟩ := List.exists_cons_of_ne_nil hbeyond
    obtain ⟨rfl, htail⟩ := List.cons.inj hsplit
    rcases List.singleton_eq_append_iff.mp htail with ⟨rfl, rfl⟩ | ⟨rfl, rfl⟩
    · exact .inl ⟨rfl, rfl⟩
    · exact .inr ⟨rfl, rfl⟩
  rcases hcases with ⟨rfl, rfl⟩ | ⟨rfl, rfl⟩
  · have hnears : c'.Nears s.lineComments [] :=
      ⟨h.within', k, h.ahead', hrun.drop_newline⟩
    obtain ⟨rest', hrest', hwithin', hahead'⟩ := trivia_nears hnears noTrivia_nil
    exact ⟨rest', hrest', .spent ⟨rfl, rfl⟩ ((h.within.reads hahead).within h.within) hwithin'
      (h.within.ahead_advance hahead) hahead'⟩
  · have hlast : TriviaRun s.lineComments (k ++ ['\n'] ++ ['}']) [] := by simpa using hrun
    obtain ⟨-, v, inner, hinner, hline⟩ := hlast.in_lastLine (.inr rfl)
    exact (not_mem_lastLine hinner hline).elim

/-- Trivia that reaches over the semicolon reaches to the end of the text, and so it does without
the semicolon. -/
theorem trivia_dropped {others beyond : List Char} {hothers : others = [] ∨ others = ['}']}
    (hbeyond : beyond ≠ []) (h : Abreast (.dropped others hothers : Tails s.lineComments) k c c')
    (hsplit : ';' :: others = beyond ++ l) (hrun : TriviaRun s.lineComments (k ++ beyond) l) :
    ∃ rest', trivia s c' = .matched () rest' ∧
      Arrived (.dropped others hothers : Tails s.lineComments) (c.advance (k ++ beyond).length)
        rest' := by
  have hahead : c.ahead = k ++ beyond ++ l := by
    rw [h.ahead, List.append_assoc, ← hsplit]
    rfl
  obtain ⟨x, beyond, rfl⟩ := List.exists_cons_of_ne_nil hbeyond
  obtain ⟨rfl, htail⟩ := List.cons.inj hsplit
  have hlast : l = [] ∧ TriviaRun s.lineComments (k ++ others) [] := by
    rcases hothers with rfl | rfl
    · obtain ⟨rfl, rfl⟩ := List.append_eq_nil_iff.mp htail.symm
      exact hrun.replace_last (.inl rfl) List.not_mem_nil
    · rcases List.singleton_eq_append_iff.mp htail with ⟨rfl, rfl⟩ | ⟨rfl, rfl⟩
      · exact absurd (hrun.replace_last (.inl rfl) List.not_mem_nil).1 (List.cons_ne_nil _ _)
      · have hbrace : TriviaRun s.lineComments (k ++ [';'] ++ ['}']) [] := by simpa using hrun
        have hsemicolon := (hbrace.replace_last (.inr rfl) List.not_mem_nil).2
        rw [List.append_nil] at hsemicolon
        exact ⟨rfl, (hsemicolon.replace_last (.inl rfl) (by simp)).2⟩
  obtain ⟨rfl, hwithout⟩ := hlast
  have hnears : c'.Nears s.lineComments [] :=
    ⟨h.within', k ++ others, by rw [h.ahead', List.append_nil]; rfl, hwithout⟩
  obtain ⟨rest', hrest', hwithin', hahead'⟩ := trivia_nears hnears noTrivia_nil
  exact ⟨rest', hrest', .spent ⟨.inl rfl, rfl⟩ ((h.within.reads hahead).within h.within) hwithin'
    (h.within.ahead_advance hahead) hahead'⟩

theorem append_split {e : List Char} {w : List Char} (h : k ++ e = w ++ l) :
    (∃ inside, k = w ++ inside ∧ l = inside ++ e) ∨
      ∃ beyond, beyond ≠ [] ∧ w = k ++ beyond ∧ e = beyond ++ l := by
  rcases List.append_eq_append_iff.mp h with ⟨beyond, rfl, rfl⟩ | ⟨inside, rfl, rfl⟩
  · by_cases hbeyond : beyond = []
    · subst hbeyond
      exact .inl ⟨[], by simp, by simp⟩
    · exact .inr ⟨beyond, hbeyond, rfl, rfl⟩
  · exact .inl ⟨inside, rfl, rfl⟩

/-- Trivia that is skipped from the same place of the common beginning. -/
theorem trivia_abreast (h : Abreast tails k c c') {rest : Cursor}
    (hrest : trivia s c = .matched () rest) :
    ∃ rest', trivia s c' = .matched () rest' ∧ Arrived tails rest rest' := by
  obtain ⟨-, w, hreads, hrun⟩ := trivia_ensures c () rest h.within hrest
  have hstop := trivia_maximal h.within hrest
  have hsplit : k ++ tails.first = w ++ rest.ahead := h.ahead.symm.trans hreads.ahead
  obtain rfl := hreads.rest
  generalize (c.advance w.length).ahead = l at hsplit hrun hstop
  rcases append_split hsplit with ⟨inside, rfl, rfl⟩ | ⟨beyond, hbeyond, rfl, hfirst⟩
  · by_cases hinside : inside = []
    · subst hinside
      cases tails with
      | closed => exact trivia_closed (k := w) (by simpa using h) hrun
      | opened | joined | dropped => exact ⟨_, trivia_inside h hrun hstop (List.cons_ne_nil _ _)⟩
    · exact ⟨_, trivia_inside h hrun hstop (List.append_ne_nil_of_left_ne_nil hinside _)⟩
  · cases tails with
    | closed => exact absurd (List.append_eq_nil_iff.mp hfirst.symm).1 hbeyond
    | opened => exact trivia_opened hbeyond h hfirst hrun
    | dropped => exact trivia_dropped hbeyond h hfirst hrun
    | joined mark others hmark hothers =>
      -- the end of the item would stand in a comment up to the end of its line
      obtain ⟨rfl, rfl⟩ : beyond = [mark] ∧ l = [] := by
        rcases List.singleton_eq_append_iff.mp hfirst with ⟨rfl, -⟩ | h
        · exact absurd rfl hbeyond
        · exact h
      obtain ⟨hallowed, v, inner, rfl, -⟩ := hrun.in_lastLine hmark
      exact absurd ⟨v, inner, by simp⟩ (h.lines mark rfl hallowed)

/-- Trivia is skipped in both texts up to places that correspond. -/
theorem trivia_inStep (h : InStep tails c c') {rest : Cursor}
    (hrest : trivia s c = .matched () rest) :
    ∃ rest', trivia s c' = .matched () rest' ∧ Arrived tails rest rest' := by
  rcases h with ⟨k, h⟩ | h
  · exact trivia_abreast h hrest
  · obtain ⟨mid, rest', hmid, hrest', harrived⟩ := trivia_spent h
    cases hmid.symm.trans hrest
    exact ⟨rest', hrest', harrived⟩

/-- Where trivia ends, the runs are still within the common beginning, or nothing but the closing
mark can follow. -/
theorem Arrived.alongside_or {tails : Tails lineComments} (h : Arrived tails c c') :
    Alongside tails c c' ∨
      (∀ x ∈ c.ahead.head?, x = tails.closer) ∧ ∀ x ∈ c'.ahead.head?, x = tails.closer := by
  cases h with
  | alike h => exact .inl h.alongside
  | dropping h => exact .inl ⟨_, h⟩
  | spent hends _ _ h h' =>
    obtain ⟨hl, hl'⟩ := hends.nil_or_closer
    rw [h, h']
    exact .inr ⟨by rcases hl with rfl | rfl <;> simp, by rcases hl' with rfl | rfl <;> simp⟩

/-- Skipping trivia fails in the first text, or both runs go on at places that correspond. -/
theorem trivia_cases (h : InStep tails c c') :
    (∃ place expected blamed, trivia s c = .failed place expected blamed) ∨
      ∃ rest rest', trivia s c = .matched () rest ∧ trivia s c' = .matched () rest' ∧
        Arrived tails rest rest' := by
  cases hskip : trivia s c with
  | missed place expected => exact absurd ⟨place, expected, hskip⟩ (trivia_neverMisses c)
  | failed place expected blamed => exact .inl ⟨_, _, _, rfl⟩
  | matched v rest =>
    obtain ⟨rest', hskip', harrived⟩ := trivia_inStep h hskip
    exact .inr ⟨rest, rest', rfl, hskip', harrived⟩

/-- What stands behind the trivia that is skipped. -/
theorem next_of_trivia {p : Char → Prop} {rest : Cursor} (hc : c.Within)
    (h : trivia s c = .matched () rest) (hhead : ∀ x ∈ rest.ahead.head?, p x) :
    Next s.lineComments p c.ahead := by
  obtain ⟨-, w, hreads, hrun⟩ := trivia_ensures c () rest hc h
  exact ⟨w, rest.ahead, hreads.ahead, hrun, trivia_maximal hc h, hhead⟩

theorem next_nil {p : Char → Prop} {lineComments : Bool} : Next lineComments p [] :=
  next_of_run .nil

/-- The rule misses where the common beginning is used up, trivia apart. -/
def RefusesEnds (tails : Tails lineComments) (rule : Rule α) : Prop :=
  ∀ k, Next lineComments (· = tails.closer) k → rule.Refuses k

theorem agrees_token {doomed : Prop} {Q : Cursor → Cursor → Prop}
    (hrule : rule.Agrees doomed (Alongside tails) Q)
    (hrefuses : RefusesEnds tails (token s rule)) :
    (token s rule).Agrees doomed (InStep tails) Q := by
  intro c c' h
  obtain ⟨hc, hc'⟩ := h.within
  rcases trivia_cases h with ⟨_, _, _, hskip⟩ | ⟨rest, rest', hskip, hskip', harrived⟩
  · unfold token
    rw [hskip]
    exact .failed
  · rcases harrived.alongside_or with h | ⟨hrest, hrest'⟩
    · unfold token
      rw [hskip, hskip']
      exact hrule rest rest' h
    · obtain ⟨place, expected, hmiss⟩ := hrefuses _ (next_of_trivia hc hskip hrest) c hc rfl
      obtain ⟨place', expected', hmiss'⟩ := hrefuses _ (next_of_trivia hc' hskip' hrest') c' hc' rfl
      rw [hmiss, hmiss']
      exact .missed

end Grammar

end LessSyntax
