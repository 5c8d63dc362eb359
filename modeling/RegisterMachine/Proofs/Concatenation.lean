import RegisterMachine.Proofs.Labels

/-!
# Concatenated sources

A source text of whole lines may stand in front of another one. Its lines keep their
numbers and its instructions their indices, those of the other text move on by as many
lines and instructions as there are in front of them; and since of several definitions
of a name the last one counts, those of the other text go first (`assemble_append`).
-/

namespace RegisterMachine

open SourceLines LabelTable

theorem lines_toList_append {first : String} (h : first = "" ∨ ∃ front, first = front ++ "\n")
    (second : String) :
    Split.lines (first ++ second).toList =
      Split.lines first.toList ++ Split.lines second.toList := by
  rw [String.toList_append]
  refine Split.lines_append ?_ _
  obtain rfl | ⟨front, rfl⟩ := h
  · exact .inl rfl
  · exact .inr (by rw [String.toList_append]; exact List.getLast?_concat)

/-- The program of concatenated lines: the labels of the latter lines go first. -/
theorem get?_program_append (texts others : List (List Char)) (name : String) :
    (program (texts ++ others)).labels.get? name =
      (((program others).labels.get? name).map (· + size texts)).or
        ((program texts).labels.get? name) := by
  rw [get?_program, get?_program, get?_program, labels_append, last?_append, labels_add,
    last?_map_add]

/-- The errors of a text of whole lines do not depend on what comes after it. If it has none,
    those of the text after it are on lines moved by the lines in front of them. If both have
    none, then the instructions of the one are followed by those of the other, moved likewise,
    and the labels of the other, moved by the instructions in front of them, replace those
    of the one. -/
theorem assemble_append (first second : String)
    (hfirst : first = "" ∨ ∃ front, first = front ++ "\n") :
    (∀ error, assemble first = .error error → assemble (first ++ second) = .error error) ∧
    (∀ program error, assemble first = .ok program → assemble second = .error error →
      assemble (first ++ second) = .error (error.moved (Split.lines first.toList).length)) ∧
    ∀ program other, assemble first = .ok program → assemble second = .ok other →
      ∃ whole, assemble (first ++ second) = .ok whole ∧
        whole.instructions = program.instructions ++
          other.instructions.map (·.moved (Split.lines first.toList).length) ∧
        ∀ name, whole.labels.get? name = match other.labels.get? name with
          | some index => some (index + program.instructions.size)
          | none => program.labels.get? name := by
  have hlines := lines_toList_append hfirst second
  refine ⟨fun error herror => ?_, fun program error hprogram herror => ?_,
    fun program other hprogram hother => ?_⟩
  · rw [assemble_eq_error_iff] at herror ⊢
    rw [hlines, error?_append, herror, Option.some_or]
  · rw [assemble_eq_error_iff] at herror ⊢
    rw [hlines, error?_append, (assemble_eq_ok_iff.1 hprogram).1, Option.none_or, Nat.add_comm,
      error?_add, herror, Option.map_some]
  · obtain ⟨hnone, rfl⟩ := assemble_eq_ok_iff.1 hprogram
    obtain ⟨hnone', rfl⟩ := assemble_eq_ok_iff.1 hother
    refine ⟨_, assemble_eq_ok_iff.2 ⟨?_, rfl⟩, ?_, fun name => ?_⟩
    · rw [hlines, error?_append, hnone, Option.none_or, Nat.add_comm, error?_add, hnone',
        Option.map_none]
    · rw [hlines]
      simp only [SourceLines.program]
      rw [instructions_append, Nat.add_comm, instructions_add, ← List.append_toArray,
        ← List.map_toArray]
    · rw [hlines, get?_program_append]
      have hsize : size (Split.lines first.toList) =
          (SourceLines.program (Split.lines first.toList)).instructions.size :=
        (@length_instructions 1 _).symm
      rw [← hsize]
      cases (SourceLines.program (Split.lines second.toList)).labels.get? name <;> rfl

/-- A label that both texts define, in different cases, stands at the instruction of the latter
    one, behind that of the former. -/
theorem assemble_append_redefined :
    ∃ whole, assemble ("A: HLT\n" ++ "a: INC R0") = .ok whole ∧
      whole.labels.get? "a" = some 1 := by
  obtain ⟨-, -, h⟩ := assemble_append "A: HLT\n" "a: INC R0" (.inr ⟨"A: HLT", rfl⟩)
  obtain ⟨whole, hwhole, -, hlabels⟩ := h _ _
    (assemble_eq_ok_iff.2 ⟨by decide +kernel, rfl⟩) (assemble_eq_ok_iff.2 ⟨by decide +kernel, rfl⟩)
  refine ⟨whole, hwhole, ?_⟩
  have hother : (SourceLines.program (Split.lines "a: INC R0".toList)).labels.get? "a" =
      some 0 := by
    rw [get?_program]
    decide +kernel
  have hsize : (SourceLines.program (Split.lines "A: HLT\n".toList)).instructions.size = 1 := by
    decide +kernel
  rw [hlabels, hother]
  exact congrArg some ((Nat.zero_add _).trans hsize)

end RegisterMachine
