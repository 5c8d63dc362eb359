import RegisterMachine.Program.Listing
import RegisterMachine.Proofs.Labels

/-!
# Rows of listings

A listing shows one row for each label and each instruction (`Listing.Row`). The rows
follow from the instructions and the labels in their order (`Listing.rows`): in front of
each instruction come the labels that are at the head of those pending and point at it,
and at the end those that are left.

* `Program.listingLines_eq`: the lines of the listing are those of its rows;
* `Listing.exists_of_mem_rows`: each row is that of a label or of an instruction;
* `LabelTable.insertAll_of_perm`: the entries of a table, in any order, make it up.
-/

namespace RegisterMachine

namespace Listing

/-- What a line of a listing shows. -/
inductive Row
  | label (name : String)
  | instruction (index : Nat) (instruction : Instruction)

/-- The line of a row. -/
def Row.line : Row → String
  | .label name => labelLine name
  | .instruction index shown => instructionLine index shown

/-- The rows of instructions from an index on, with the labels that are pending. -/
def rows (index : Nat) (pending : List (String × Nat)) : List Instruction → List Row
  | [] => pending.map fun label => .label label.1
  | instruction :: rest =>
    (pending.takeWhile (·.2 == index)).map (fun label => .label label.1) ++
      .instruction index instruction ::
        rows (index + 1) (pending.dropWhile (·.2 == index)) rest

theorem map_line_label (labels : List (String × Nat)) :
    (labels.map fun label => Row.label label.1).map Row.line =
      labels.map fun label => labelLine label.1 := by
  rw [List.map_map]
  rfl

/-- Listing instructions from a place on adds their rows to the lines so far. -/
theorem finish_foldl (cursor : Cursor) (instructions : List Instruction) :
    (instructions.foldl Cursor.next cursor).finish.toList =
      cursor.lines.toList ++ (rows cursor.index cursor.pending instructions).map Row.line := by
  induction instructions generalizing cursor with
  | nil =>
    rw [List.foldl_nil, rows, map_line_label]
    simp [Cursor.finish]
  | cons instruction rest ih =>
    rw [List.foldl_cons, ih, rows, List.map_append, map_line_label, List.map_cons]
    simp [Cursor.next, Row.line]

/-- A row is that of a label that is pending or of an instruction. -/
theorem exists_of_mem_rows {index : Nat} {pending : List (String × Nat)}
    {instructions : List Instruction} {row : Row} (h : row ∈ rows index pending instructions) :
    (∃ label ∈ pending, row = .label label.1) ∨
      ∃ number, ∃ instruction ∈ instructions, row = .instruction number instruction := by
  induction instructions generalizing index pending with
  | nil =>
    obtain ⟨label, hlabel, rfl⟩ := List.mem_map.1 h
    exact .inl ⟨label, hlabel, rfl⟩
  | cons instruction rest ih =>
    rw [rows, List.mem_append, List.mem_cons] at h
    obtain hlabels | rfl | hrest := h
    · obtain ⟨label, hlabel, rfl⟩ := List.mem_map.1 hlabels
      exact .inl ⟨label, (List.takeWhile_sublist _).mem hlabel, rfl⟩
    · exact .inr ⟨index, instruction, List.mem_cons_self, rfl⟩
    · obtain ⟨label, hlabel, rfl⟩ | ⟨number, later, hlater, rfl⟩ := ih hrest
      · exact .inl ⟨label, (List.dropWhile_sublist _).mem hlabel, rfl⟩
      · exact .inr ⟨number, later, List.mem_cons_of_mem _ hlater, rfl⟩

/-- The rows in front of that of an instruction begin the rows of the instructions in front of
    it. -/
theorem exists_rows_append (index : Nat) (pending : List (String × Nat))
    (front : List Instruction) (instruction : Instruction) (back : List Instruction) :
    ∃ before after, rows index pending (front ++ instruction :: back) =
        before ++ .instruction (index + front.length) instruction :: after ∧
      before <+: rows index pending front := by
  induction front generalizing index pending with
  | nil => exact ⟨_, _, rfl, (List.takeWhile_prefix _).map _⟩
  | cons first rest ih =>
    obtain ⟨before, after, hrows, hbefore⟩ := ih (index + 1) (pending.dropWhile (·.2 == index))
    refine ⟨(pending.takeWhile (·.2 == index)).map (fun label => .label label.1) ++
      .instruction index first :: before, after, ?_, ?_⟩
    · rw [List.cons_append, rows, hrows, List.length_cons, List.append_assoc, List.cons_append,
        Nat.add_assoc, Nat.add_comm 1]
    · rw [rows, List.prefix_append_right_inj, List.cons_prefix_cons]
      exact ⟨rfl, hbefore⟩

/-- The labels that are left behind an index point beyond it, if they are in their order. -/
theorem lt_of_mem_dropWhile {index : Nat} {pending : List (String × Nat)}
    (hsorted : pending.Pairwise fun a b => a.2 ≤ b.2)
    (hle : ∀ label ∈ pending, index ≤ label.2) {label : String × Nat}
    (h : label ∈ pending.dropWhile (·.2 == index)) : index < label.2 := by
  induction pending with
  | nil => cases h
  | cons first rest ih =>
    obtain ⟨hfirst, hrest⟩ := List.pairwise_cons.1 hsorted
    obtain ⟨hlefirst, hlerest⟩ := List.forall_mem_cons.1 hle
    by_cases heq : first.2 = index
    · rw [List.dropWhile_cons_of_pos (by simpa using heq)] at h
      exact ih hrest hlerest h
    · rw [List.dropWhile_cons_of_neg (by simpa using heq)] at h
      have hlt : index < first.2 := Nat.lt_of_le_of_ne hlefirst (Ne.symm heq)
      obtain _ | ⟨_, hmem⟩ := h
      · exact hlt
      · exact Nat.lt_of_lt_of_le hlt (hfirst label hmem)

/-! ## The labels in their order -/

variable {labels : LabelTable} {name : String} {index : Nat}

theorem mem_sortedLabels :
    (name, index) ∈ sortedLabels labels ↔ labels.entries[name]? = some index := by
  rw [sortedLabels, (List.mergeSort_perm _ _).mem_iff, LabelTable.mem_toList]

/-- The names in a table are in upper case. -/
theorem toUpper_of_mem_sortedLabels (h : (name, index) ∈ sortedLabels labels) :
    name.toUpper = name :=
  LabelTable.toUpper_of_mem_toList (LabelTable.mem_toList.2 (mem_sortedLabels.1 h))

theorem get?_of_mem_sortedLabels (h : (name, index) ∈ sortedLabels labels) :
    labels.get? name = some index := by
  rw [LabelTable.get?, toUpper_of_mem_sortedLabels h, mem_sortedLabels.1 h]

theorem pairwise_sortedLabels (labels : LabelTable) :
    (sortedLabels labels).Pairwise fun a b => a.2 ≤ b.2 := by
  have h := @List.pairwise_mergeSort _ (fun a b : String × Nat => decide (a.2 ≤ b.2))
    (fun a b c => by simpa using Nat.le_trans) (fun a b => by simpa using Nat.le_total a.2 b.2)
    labels.toList
  exact h.imp of_decide_eq_true

end Listing

open Listing

/-- An entry that counts is one of those that were added. -/
theorem LabelTable.mem_of_last?_eq_some {name : String} {index : Nat}
    {entries : List (String × Nat)} (h : last? name entries = some index) :
    ∃ entry ∈ entries, entry.1.toUpper = name.toUpper ∧ entry.2 = index := by
  obtain ⟨before, other, after, rfl, hupper, -⟩ := last?_eq_some_iff.1 h
  exact ⟨(other, index), List.mem_append_right before List.mem_cons_self, hupper, rfl⟩

/-- The entries of a table, added to the empty one in any order, make up the table. -/
theorem LabelTable.insertAll_of_perm {labels : LabelTable} {entries : List (String × Nat)}
    (h : entries.Perm labels.toList) : (∅ : LabelTable).insertAll entries = labels := by
  refine ext_get? fun name => ?_
  rw [get?_insertAll, get?_empty, Option.or_none]
  -- The names in the table differ in more than case, so the last entry of a name is the only one.
  rcases hlast : last? name entries with _ | index
  · rw [last?_eq_none_iff] at hlast
    refine (get?_eq_none_iff.2 ?_).symm
    rintro ⟨entry, hentry, hupper⟩
    exact hlast entry (h.mem_iff.2 hentry) hupper
  · obtain ⟨⟨other, found⟩, hmem, hupper, rfl⟩ := mem_of_last?_eq_some hlast
    have hentry := h.mem_iff.1 hmem
    rw [get?, ← hupper, toUpper_of_mem_toList hentry, mem_toList.1 hentry]

theorem Listing.insertAll_sortedLabels (labels : LabelTable) :
    (∅ : LabelTable).insertAll (sortedLabels labels) = labels :=
  LabelTable.insertAll_of_perm (List.mergeSort_perm _ _)

namespace Program

/-- The rows of the listing. -/
def rows (program : Program) : List Row :=
  Listing.rows 0 (sortedLabels program.labels) program.instructions.toList

theorem listingLines_eq (program : Program) :
    program.listingLines = program.rows.map Row.line := by
  rw [listingLines, finish_foldl]
  rfl

end Program

end RegisterMachine
