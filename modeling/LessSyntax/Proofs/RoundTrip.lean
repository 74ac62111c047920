import LessSyntax.Proofs.NestingLimit
import LessSyntax.Proofs.WrittenValue

/-!
# Writing a value and reading it again

Every value that is read has a written form, and the written form is read as the same value.

* `parseValue_print`: the round trip.
-/

namespace LessSyntax

open Grammar Rule

variable {s : Settings} {source : Source} {v : Value}

/-- What is read as a value can be written. -/
theorem parseValue_written (h : parseValue s source = .ok v) : v.Written 3 := by
  rw [parseValue_eq] at h
  obtain ⟨rest, stop, hread, -⟩ := parse_matched h
  exact (valueAt_written s.maxDepth _ v rest (Cursor.within_ofText source.chars) hread).2

/-- What is read as a value is nested no deeper than the settings allow. -/
theorem parseValue_nesting (h : parseValue s source = .ok v) : v.nesting ≤ s.maxDepth := by
  have hread : Entry.value.parse s source = .ok (.value v) := by
    show (parseValue s source).map Tree.value = .ok (.value v)
    rw [h]
    rfl
  obtain ⟨hnest, -⟩ | ⟨-, e, herror, -⟩ :=
    Entry.value.parse_limited rfl (Nat.le_refl s.maxDepth) (.value v) hread
  · exact hnest
  · rw [hread] at herror
    cases herror

/-- The written form of a value is read as a value with the same content. -/
theorem parseValue_of_written (hwritten : v.Written 3) (hnest : v.nesting ≤ s.maxDepth)
    (url : Option String) : ∃ w, parseValue s ⟨v.print, url⟩ = .ok w ∧ v.same w = true := by
  have hends : Ends s.lineComments valueEnds [] := ⟨[], [], rfl, .nil, by simp⟩
  have hrun : TriviaRun s.lineComments [] [] := .nil
  obtain ⟨w, hread, hsame⟩ := parse_accepted endLabel url
    (valueAt_takes s.maxDepth v [] [] hwritten hnest .nil hends) hrun
  refine ⟨w, ?_, hsame⟩
  rw [List.nil_append, List.append_nil] at hread
  rw [parseValue_eq, hread]

/-- A value that is read is written, and its written form is read as a value with the same
content. -/
theorem parseValue_print (s : Settings) (source : Source) (url : Option String) {v : Value}
    (h : parseValue s source = .ok v) :
    ∃ text w, (Tree.value v).toText = .ok text ∧
      parseValue s ⟨text.toList, url⟩ = .ok w ∧ v.same w = true := by
  have hwritten := parseValue_written h
  obtain ⟨w, hread, hsame⟩ := parseValue_of_written hwritten (parseValue_nesting h) url
  refine ⟨String.ofList v.print, w, ?_, ?_, hsame⟩
  · rw [Tree.toText, if_pos hwritten.hasLengths]
  · rw [String.toList_ofList]
    exact hread

/-- Two elements that touch are written with a blank between them. -/
theorem print_touching :
    ∃ v w,
      parseValue ⟨1, true⟩ ⟨['1', 'p', 'x', '#', 'f', 'f', 'f', '/', 'f', '(', ')'], none⟩ = .ok v ∧
      (Tree.value v).toText = .ok "1px #fff/f()" ∧
      parseValue ⟨1, true⟩ ⟨"1px #fff/f()".toList, none⟩ = .ok w ∧ v.same w = true := by
  obtain ⟨v, hv, hprint⟩ : ∃ v, parseValue ⟨1, true⟩
      ⟨['1', 'p', 'x', '#', 'f', 'f', 'f', '/', 'f', '(', ')'], none⟩ = .ok v ∧
      (Tree.value v).toText = .ok "1px #fff/f()" := ⟨_, rfl, rfl⟩
  obtain ⟨text, w, htext, hread, hsame⟩ := parseValue_print ⟨1, true⟩ _ none hv
  rw [hprint] at htext
  cases htext
  exact ⟨v, w, hv, hprint, hread, hsame⟩

end LessSyntax
