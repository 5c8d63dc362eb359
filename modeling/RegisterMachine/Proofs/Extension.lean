import RegisterMachine.Proofs.Concatenation
import RegisterMachine.Proofs.Simulation

/-!
# Appended code

A source text of whole lines keeps its meaning when another one is put behind it, as
long as the other one does not define any of its labels again. The instructions of the
first text stay where they are, on the same lines, and its labels keep their indices; so
the longer program extends the first one (`SourceLines.extends_append`), and does what
this does up to its first fault, and the fault as well, unless it is for want of an
instruction or of a label, which the appended code may provide (`after_append`).
-/

namespace RegisterMachine

theorem Instruction.follows_self {labels others : LabelTable}
    (h : ∀ name index, labels.get? name = some index → others.get? name = some index)
    (instruction : Instruction) : instruction.Follows labels others instruction where
  opcode := rfl
  line := rfl
  operands := List.forall₂_same.2 fun _ _ => ⟨rfl, h _⟩

namespace SourceLines

variable {texts others : List (List Char)}

theorem error?_append_eq_none (h : error? 1 texts = none) (h' : error? 1 others = none) :
    error? 1 (texts ++ others) = none := by
  rw [error?_append, h, Option.none_or, Nat.add_comm, error?_add, h', Option.map_none]

/-- The program of lines is extended by that of more lines, if these do not define its labels. -/
theorem extends_append
    (h : ∀ name, ((program texts).labels.get? name).isSome →
      (program others).labels.get? name = none) :
    (program texts).Extends (program (texts ++ others)) := by
  intro index instruction hinstruction
  refine ⟨instruction, ?_, Instruction.follows_self (fun name target htarget => ?_) instruction⟩
  · rw [program, List.getElem?_toArray] at hinstruction ⊢
    obtain ⟨hlt, -⟩ := List.getElem?_eq_some_iff.1 hinstruction
    rw [instructions_append, List.getElem?_append_left hlt, hinstruction]
  · rw [get?_program_append, h name (by rw [htarget]; rfl), Option.map_none, Option.none_or,
      htarget]

end SourceLines

/-- Behind a text of whole lines, a text that defines none of its labels may be added. As long
    as a run of the first program has no faults, it is one of the longer program too, through
    the same states; and its first fault is the same, unless it is for want of a label
    or of an instruction. -/
theorem after_append (first second : String) (program other : Program)
    (hfirst : first = "" ∨ ∃ front, first = front ++ "\n")
    (hprogram : assemble first = .ok program) (hother : assemble second = .ok other)
    (hlabels : ∀ name, (program.labels.get? name).isSome → other.labels.get? name = none) :
    ∃ whole, assemble (first ++ second) = .ok whole ∧
      ∀ k, Machine.initial.FaultFree program k →
        Machine.initial.FaultFree whole k ∧
        (∀ i ≤ k, Machine.initial.after whole i = Machine.initial.after program i) ∧
        ∀ fault, ((Machine.initial.after program k).step program).outcome = .fault fault →
          fault.kind ≠ .undefinedLabel → fault ≠ ⟨.executionOutOfBounds, none⟩ →
          ((Machine.initial.after whole k).step whole).outcome = .fault fault := by
  obtain ⟨hnone, rfl⟩ := assemble_eq_ok_iff.1 hprogram
  obtain ⟨hnone', rfl⟩ := assemble_eq_ok_iff.1 hother
  have hextends := SourceLines.extends_append hlabels
  refine ⟨_, assemble_eq_ok_iff.2 ⟨?_, rfl⟩, fun k hfree => ?_⟩
  · rw [lines_toList_append hfirst, SourceLines.error?_append_eq_none hnone hnone']
  rw [lines_toList_append hfirst]
  have hafter (i : Nat) (hi : i ≤ k) := Machine.after_of_extends hextends (hfree.mono hi)
  refine ⟨hfree.of_extends hextends, hafter, fun fault hfault hlabel hend => ?_⟩
  rw [hafter k le_rfl]
  exact Machine.outcome_of_extends hextends hfault fun hmissing => hmissing.elim hlabel hend

/-- A division by zero in a subroutine is the same fault in front of another subroutine. -/
theorem after_append_divide :
    ∃ whole, assemble ("CALL f\nf: DIV R1, R0\n" ++ "G: HLT") = .ok whole ∧
      ((Machine.initial.after whole 1).step whole).outcome = .fault ⟨.divisionByZero, some 2⟩ := by
  have hfirst : SourceLines.labels 0 (Split.lines "CALL f\nf: DIV R1, R0\n".toList) =
      [("f", 1)] := by decide +kernel
  have hsecond : SourceLines.labels 0 (Split.lines "G: HLT".toList) = [("G", 0)] := by
    decide +kernel
  have hlabels (name : String)
      (hname : ((SourceLines.program (Split.lines "CALL f\nf: DIV R1, R0\n".toList)).labels.get?
        name).isSome) :
      (SourceLines.program (Split.lines "G: HLT".toList)).labels.get? name = none := by
    rw [SourceLines.get?_program, hsecond, LabelTable.last?_eq_none_iff, List.forall_mem_singleton]
    intro hupper
    rw [SourceLines.get?_program, hfirst, LabelTable.last?_eq_none_iff.2] at hname
    · cases hname
    · rw [List.forall_mem_singleton, ← hupper]
      decide +kernel
  obtain ⟨whole, hwhole, h⟩ := after_append "CALL f\nf: DIV R1, R0\n" "G: HLT" _ _
    (.inr ⟨"CALL f\nf: DIV R1, R0", rfl⟩) (assemble_eq_ok_iff.2 ⟨by decide +kernel, rfl⟩)
    (assemble_eq_ok_iff.2 ⟨by decide +kernel, rfl⟩) hlabels
  obtain ⟨-, -, hfault⟩ := h 1 (by decide +kernel)
  exact ⟨whole, hwhole,
    hfault ⟨.divisionByZero, some 2⟩ (by decide +kernel) (by decide) (by decide)⟩

end RegisterMachine
