import LessSyntax.Proofs.Lexeme.Name
import Mathlib.Computability.Language

/-!
# The language of names

A name is up to two hyphens, a letter of ASCII, an underscore or any character beyond ASCII, and
then as many of these, digits of ASCII and hyphens as there are. The classes of the rule are those
of Unicode; since all characters beyond ASCII may stand in a name anyhow, only the first 128 code
points tell the two apart, and there they agree.

The hyphens are counted first and the class of what a name goes on with holds hyphens as well. The
language has no such order; still a text begins with at most one longest name, and it is the one
that is measured.

* `names`: the language.
* `isNameStart_iff`, `isNameChar_iff`: the two classes.
* `mem_names_iff`: the texts of the language are the texts that are measured to their end.
* `IsName.le_nameLength`: no name is longer than what is measured.
* `name_grammar`: reading a name.
-/

namespace LessSyntax.Grammar

open Rule
open scoped Computability

/-! ## The language -/

/-- `[a-zA-Z_]`, or a character beyond ASCII. -/
def BeginsName (x : Char) : Prop :=
  ('a' ≤ x ∧ x ≤ 'z') ∨ ('A' ≤ x ∧ x ≤ 'Z') ∨ x = '_' ∨ '\u0080' ≤ x

/-- `[a-zA-Z0-9_-]`, or a character beyond ASCII. -/
def ContinuesName (x : Char) : Prop := BeginsName x ∨ ('0' ≤ x ∧ x ≤ '9') ∨ x = '-'

/-- The texts of one character, which is of the class. -/
def oneOf (p : Char → Prop) : Language Char := {text | ∃ x, p x ∧ text = [x]}

/-- A hyphen, or nothing. -/
def hyphen? : Language Char := 1 + oneOf (· = '-')

/-- Up to two hyphens. -/
def hyphens : Language Char := hyphen? * hyphen?

def names : Language Char := hyphens * oneOf BeginsName * (oneOf ContinuesName)∗

/-! ## The classes -/

theorem letterRuns_ascii : ∀ code < 0x80, (Unicode.letterRuns.contains code = true ↔
    (97 ≤ code ∧ code ≤ 122) ∨ (65 ≤ code ∧ code ≤ 90)) := by
  decide

theorem digitRuns_ascii : ∀ code < 0x80, (Unicode.digitRuns.contains code = true ↔
    48 ≤ code ∧ code ≤ 57) := by
  decide

theorem le_iff_toNat {x y : Char} : x ≤ y ↔ x.toNat ≤ y.toNat := Iff.rfl

/-- Beyond ASCII every character begins a name, and up to its end the letters of Unicode are those
of ASCII. -/
theorem isNameStart_iff {x : Char} : isNameStart x = true ↔ BeginsName x := by
  have hascii := letterRuns_ascii x.toNat
  simp only [isNameStart, BeginsName, Unicode.isLetter, isNonAscii, Bool.or_eq_true, beq_iff_eq,
    decide_eq_true_eq, le_iff_toNat, Char.reduceToNat]
  by_cases hx : x.toNat < 0x80
  · rw [hascii hx]
    tauto
  · have hbeyond : 128 ≤ x.toNat := Nat.le_of_not_lt hx
    simp only [hbeyond, or_true, true_or]

theorem isNameChar_iff {x : Char} : isNameChar x = true ↔ ContinuesName x := by
  have hascii := digitRuns_ascii x.toNat
  simp only [isNameChar, ContinuesName, Unicode.isDigit, Bool.or_eq_true, isNameStart_iff,
    beq_iff_eq, le_iff_toNat, Char.reduceToNat, or_assoc]
  by_cases hx : x.toNat < 0x80
  · rw [hascii hx]
  · have hbeyond : BeginsName x := .inr (.inr (.inr (Nat.le_of_not_lt hx)))
    simp only [hbeyond, true_or]

/-! ## The texts of the language -/

section

variable {p : Char → Prop} {text : List Char}

theorem mem_oneOf_iff : text ∈ oneOf p ↔ ∃ x, p x ∧ text = [x] := Iff.rfl

/-- Texts of one character, put together, are the texts whose characters are all of the class. -/
theorem mem_kstar_oneOf_iff : text ∈ (oneOf p)∗ ↔ ∀ x ∈ text, p x := by
  rw [Language.mem_kstar]
  constructor
  · rintro ⟨parts, rfl, hparts⟩ x hx
    obtain ⟨part, hpart, hx⟩ := List.mem_flatten.mp hx
    obtain ⟨y, hy, rfl⟩ := mem_oneOf_iff.mp (hparts part hpart)
    rwa [List.mem_singleton.mp hx]
  · intro h
    refine ⟨text.map fun x => [x], ?_, fun part hpart => ?_⟩
    · rw [← List.flatMap_def, List.flatMap_singleton']
    · obtain ⟨x, hx, rfl⟩ := List.mem_map.mp hpart
      exact ⟨x, h x hx, rfl⟩

theorem mem_hyphen?_iff : text ∈ hyphen? ↔ ∃ h ≤ 1, text = List.replicate h '-' := by
  rw [hyphen?, Language.mem_add, Language.mem_one, mem_oneOf_iff]
  constructor
  · rintro (rfl | ⟨x, rfl, rfl⟩)
    · exact ⟨0, by omega, rfl⟩
    · exact ⟨1, by omega, rfl⟩
  · rintro ⟨h, hh, rfl⟩
    obtain rfl | rfl : h = 0 ∨ h = 1 := by omega
    · exact .inl rfl
    · exact .inr ⟨'-', rfl, rfl⟩

theorem mem_hyphens_iff : text ∈ hyphens ↔ ∃ h ≤ 2, text = List.replicate h '-' := by
  simp only [hyphens, Language.mem_mul, mem_hyphen?_iff]
  constructor
  · rintro ⟨_, ⟨m, hm, rfl⟩, _, ⟨n, hn, rfl⟩, rfl⟩
    exact ⟨m + n, by omega, List.replicate_append_replicate⟩
  · rintro ⟨h, hh, rfl⟩
    refine ⟨_, ⟨h / 2, by omega, rfl⟩, _, ⟨h - h / 2, by omega, rfl⟩, ?_⟩
    rw [List.replicate_append_replicate]
    congr 1
    omega

end

variable {cs text : List Char}

/-- The texts of the language are the texts that are measured to their end. -/
theorem mem_names_iff : text ∈ names ↔ IsName text := by
  simp only [names, Language.mem_mul, mem_hyphens_iff, mem_oneOf_iff, mem_kstar_oneOf_iff,
    isName_iff, isNameStart_iff, isNameChar_iff]
  constructor
  · rintro ⟨_, ⟨_, ⟨h, hh, rfl⟩, _, ⟨x, hx, rfl⟩, rfl⟩, r, hr, rfl⟩
    exact ⟨h, x, r, by rw [List.append_assoc, List.singleton_append], hh, hx, hr⟩
  · rintro ⟨h, x, r, rfl, hh, hx, hr⟩
    refine ⟨_, ⟨_, ⟨h, hh, rfl⟩, _, ⟨x, hx, rfl⟩, rfl⟩, r, hr, ?_⟩
    rw [List.append_assoc, List.singleton_append]

/-! ## The longest name -/

/-- What is measured reaches as far as any name that the text begins with. -/
theorem IsName.le_nameLength (h : IsName text) (k : List Char) :
    ∃ count, nameLength? (text ++ k) = some count ∧ text.length ≤ count := by
  obtain ⟨n, x, r, rfl, hn, hx, hr⟩ := isName_iff.mp h
  have hmore : ∀ y ∈ r ++ k.takeWhile isNameChar, isNameChar y = true := fun y hy =>
    (List.mem_append.mp hy).elim (hr y) (List.all_eq_true.mp List.all_takeWhile y)
  have hstop : ∀ y ∈ (k.dropWhile isNameChar).head?, isNameChar y = false := fun y hy => by
    have hnot := List.head?_dropWhile_not isNameChar k
    rwa [Option.mem_def.mp hy] at hnot
  have hlength := nameLength?_append hn hx hmore hstop
  have hsplit : List.replicate n '-' ++ x :: (r ++ k.takeWhile isNameChar) ++
      k.dropWhile isNameChar = List.replicate n '-' ++ x :: r ++ k := by
    simp only [List.append_assoc, List.cons_append, List.takeWhile_append_dropWhile]
  rw [hsplit] at hlength
  refine ⟨_, hlength, ?_⟩
  simp only [List.length_append, List.length_replicate, List.length_cons]
  omega

theorem names_take {count : Nat} (h : nameLength? cs = some count) : cs.take count ∈ names := by
  have hle := (nameLength?_bounds h).2
  refine mem_names_iff.mpr (isName_of_append (k := cs.drop count) ?_)
  rw [List.take_append_drop, h, List.length_take, Nat.min_eq_left hle]

/-- No name is longer than the one that is measured. -/
theorem longest_of_nameLength {count : Nat} (h : nameLength? cs = some count) (htext : text ∈ names)
    (hbegins : text <+: cs) : text <+: cs.take count := by
  obtain ⟨k, rfl⟩ := hbegins
  obtain ⟨_, hcount, hle⟩ := (mem_names_iff.mp htext).le_nameLength k
  rw [h] at hcount
  cases hcount
  exact List.prefix_take_iff.mpr ⟨List.prefix_append text k, hle⟩

/-- **Names are the longest match.** The rule for names matches exactly where a name of the language
stands, and misses at its own place anywhere else. What it reads is the longest name that stands
there, and its value is that part of the source. -/
theorem name_grammar {c : Cursor} (hc : c.Within) :
    ((∃ t rest, name c = .matched t rest) ↔ ∃ text ∈ names, text <+: c.ahead) ∧
    ((∀ text ∈ names, ¬ text <+: c.ahead) → name c = .missed c "identifier") ∧
    ∀ t rest, name c = .matched t rest → ∃ text ∈ names, c.Reads text rest ∧
      (∀ other ∈ names, other <+: c.ahead → other <+: text) ∧
      t = Text.borrowed c.text c.pos rest.pos ∧ t.chars = text := by
  cases hlength : nameLength? c.ahead with
  | none =>
    have hmiss : name c = .missed c "identifier" := by
      rw [name, scan, Cursor.onward_eq hc.1, hlength]
    refine ⟨⟨?_, ?_⟩, fun _ => hmiss, ?_⟩
    · rintro ⟨t, rest, h⟩
      rw [hmiss] at h
      cases h
    · rintro ⟨text, htext, k, hk⟩
      obtain ⟨count, hcount, -⟩ := (mem_names_iff.mp htext).le_nameLength k
      rw [hk, hlength] at hcount
      cases hcount
    · intro t rest h
      rw [hmiss] at h
      cases h
  | some count =>
    have htext := names_take hlength
    have hmatch : name c = .matched (c.next count) (c.advance count) := by
      rw [name, scan, Cursor.onward_eq hc.1, hlength]
    refine ⟨⟨fun _ => ⟨_, htext, List.take_prefix count c.ahead⟩, fun _ => ⟨_, _, hmatch⟩⟩,
      fun hnone => absurd (List.take_prefix count c.ahead) (hnone _ htext), fun t rest h => ?_⟩
    rw [hmatch] at h
    cases h
    obtain ⟨text, rfl, hreads⟩ := hc.reads_take (nameLength?_bounds hlength).2
    have htake : c.ahead.take text.length = text := by rw [hreads.ahead, List.take_left]
    refine ⟨text, htake ▸ htext, hreads, fun other hother hbegins => ?_, ?_,
      hreads.chars_next hc⟩
    · exact htake ▸ longest_of_nameLength hlength hother hbegins
    · rw [Cursor.pos_advance, Cursor.next, Cursor.slice_eq]

/-- Two hyphens are read before a letter beyond ASCII, further ones behind it, and no mark. -/
theorem name_before_mark :
    ∃ c rest, c.Within ∧ c.ahead = ['-', '-', 'é', '9', '-', '_', '!', 'a'] ∧
      name c = .matched ⟨['-', '-', 'é', '9', '-', '_'], some ⟨0, 6⟩⟩ rest ∧
      ['-', '-', 'é', '9', '-', '_'] ∈ names ∧
      ∀ other ∈ names, other <+: c.ahead → other <+: ['-', '-', 'é', '9', '-', '_'] := by
  have hc := Cursor.within_ofText ['-', '-', 'é', '9', '-', '_', '!', 'a']
  obtain ⟨rest, hmatch⟩ : ∃ rest, name (.ofText ['-', '-', 'é', '9', '-', '_', '!', 'a']) =
      .matched ⟨['-', '-', 'é', '9', '-', '_'], some ⟨0, 6⟩⟩ rest := ⟨_, rfl⟩
  obtain ⟨text, htext, -, hlongest, -, hchars⟩ := (name_grammar hc).2.2 _ rest hmatch
  obtain rfl : ['-', '-', 'é', '9', '-', '_'] = text := hchars
  exact ⟨_, rest, hc, rfl, hmatch, htext, hlongest⟩

end LessSyntax.Grammar
