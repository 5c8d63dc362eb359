import Mathlib
import RegisterMachine.Proofs.Listing

/-!
# The arrangement of listings

A listing shows the labels of each index in the order of their names, in front of the
instruction at the index, and at the end those that point beyond the instructions, in the
order of their indices and then of their names (`Program.arrangement`). The labels may come
from the table in any order: sorted by their indices and then by their names, they are
always the same (`Program.listingOf_eq`).

Walking along the instructions, the labels at the head of those pending are all that point
at the next instruction, because those pending are in their order and none of them points
at an instruction already passed (`rows_eq`).

* `Listing.filter_sortedLabels`: sorting leaves the labels of one index in the order of
  their names;
* `Listing.rows_perm`: no label and no instruction is left out, or shown twice;
* `listing_arrangement`: the listing as a whole.
-/

namespace RegisterMachine

open Listing

/-- A label stands in front of another if its index is less, or if the index is the same and
    its name is not greater by code points. -/
def Listing.precedes (a b : String × Nat) : Bool := a.2 < b.2 ∨ a.2 = b.2 ∧ a.1 ≤ b.1

/-- The listing of a program, from the entries of its table in some order. -/
def Program.listingOf (program : Program) (entries : List (String × Nat)) : String :=
  let cursor : Cursor := ⟨0, entries.mergeSort precedes, #[]⟩
  String.join ((program.instructions.toList.foldl Cursor.next cursor).finish.toList.map (· ++ "\n"))

/-- The names of the labels of an index, in the order of their code points. -/
def LabelTable.namesAt (labels : LabelTable) (index : Nat) : List String :=
  (labels.toList.filter (·.2 == index)).map (·.1)

/-- The labels from an index on, in the order of their indices and then of their names. -/
def LabelTable.labelsFrom (labels : LabelTable) (index : Nat) : List (String × Nat) :=
  (sortedLabels labels).filter (index ≤ ·.2)

/-- The rows of the listing of a program: the labels of each instruction in front of it, and
    the labels beyond the last instruction at the end. -/
def Program.arrangement (program : Program) : List Row :=
  (program.instructions.toList.zipIdx.flatMap fun (instruction, index) =>
      (program.labels.namesAt index).map .label ++ [.instruction index instruction]) ++
    (program.labels.labelsFrom program.instructions.size).map fun label => .label label.1

/-! ## The labels in their order -/

namespace Listing

variable {labels : LabelTable} {entries : List (String × Nat)}

theorem precedes_iff {a b : String × Nat} :
    precedes a b = true ↔ toLex (a.2, a.1) ≤ toLex (b.2, b.1) := by
  rw [Prod.Lex.toLex_le_toLex, precedes, decide_eq_true_iff]

theorem pairwise_mergeSort_precedes (entries : List (String × Nat)) :
    (entries.mergeSort precedes).Pairwise fun a b => precedes a b = true := by
  refine List.pairwise_mergeSort (fun a b c => ?_) (fun a b => ?_) entries
  · simp only [precedes_iff]
    exact le_trans
  · simp only [Bool.or_eq_true, precedes_iff]
    exact le_total _ _

theorem pairwise_toList (labels : LabelTable) : labels.toList.Pairwise fun a b => a.1 < b.1 := by
  have hordered : labels.toList.Pairwise fun a b => compare a.1 b.1 = .lt :=
    Std.ExtTreeMap.ordered_keys_toList
  exact hordered.imp compareOfLessAndEq_eq_lt.1

/-- Sorting by the indices leaves the labels of one index in the order of their names. -/
theorem filter_sortedLabels (labels : LabelTable) (index : Nat) :
    (sortedLabels labels).filter (·.2 == index) = labels.toList.filter (·.2 == index) := by
  have hpairwise : (labels.toList.filter (·.2 == index)).Pairwise
      fun a b => decide (a.2 ≤ b.2) = true := by
    refine List.pairwise_of_forall_mem_list fun a ha b hb => ?_
    rw [List.mem_filter, beq_iff_eq] at ha hb
    rw [decide_eq_true_iff, ha.2, hb.2]
  have hsublist : (labels.toList.filter (·.2 == index)).Sublist (sortedLabels labels) :=
    List.sublist_mergeSort (fun a b c => by simpa using Nat.le_trans)
      (fun a b => by simpa using Nat.le_total a.2 b.2) hpairwise List.filter_sublist
  have hfilter := hsublist.filter (·.2 == index)
  rw [List.filter_filter] at hfilter
  simp only [Bool.and_self] at hfilter
  exact (hfilter.eq_of_length ((List.mergeSort_perm _ _).filter _).length_eq.symm).symm

theorem pairwise_lex_sortedLabels (labels : LabelTable) :
    (sortedLabels labels).Pairwise fun a b => a.2 < b.2 ∨ a.2 = b.2 ∧ a.1 < b.1 := by
  rw [List.pairwise_iff_forall_sublist]
  intro a b hsublist
  have hle : a.2 ≤ b.2 :=
    List.pairwise_iff_forall_sublist.1 (pairwise_sortedLabels labels) hsublist
  obtain hlt | heq := Nat.lt_or_eq_of_le hle
  · exact .inl hlt
  · -- Labels of one index are as they were in the table.
    have hfilter := hsublist.filter (·.2 == b.2)
    rw [filter_sortedLabels, List.filter_eq_self.2 (by simp [heq])] at hfilter
    exact .inr ⟨heq, List.pairwise_iff_forall_sublist.1 (pairwise_toList labels)
      (hfilter.trans List.filter_sublist)⟩

/-- Whatever the order of the entries, they are sorted to the same labels. -/
theorem mergeSort_precedes_eq (h : entries.Perm labels.toList) :
    entries.mergeSort precedes = sortedLabels labels := by
  refine List.Perm.eq_of_pairwise (fun a b _ _ hab hba => ?_)
    (pairwise_mergeSort_precedes entries) ?_ ?_
  · have heq := le_antisymm (precedes_iff.1 hab) (precedes_iff.1 hba)
    obtain ⟨hindex, hname⟩ := Prod.mk.inj (toLex_inj.1 heq)
    exact Prod.ext hname hindex
  · refine (pairwise_lex_sortedLabels labels).imp fun {a b} hlt => ?_
    rw [precedes, decide_eq_true_iff]
    exact hlt.imp_right fun h => ⟨h.1, h.2.le⟩
  · exact ((List.mergeSort_perm entries _).trans h).trans (List.mergeSort_perm _ _).symm

theorem mem_namesAt {name : String} {index : Nat} :
    name ∈ labels.namesAt index ↔ (name, index) ∈ labels.toList := by
  simp [LabelTable.namesAt]

theorem pairwise_namesAt (labels : LabelTable) (index : Nat) :
    (labels.namesAt index).Pairwise (· < ·) :=
  List.pairwise_map.2 ((pairwise_toList labels).sublist List.filter_sublist)

theorem mem_labelsFrom {label : String × Nat} {index : Nat} :
    label ∈ labels.labelsFrom index ↔ label ∈ labels.toList ∧ index ≤ label.2 := by
  rw [LabelTable.labelsFrom, List.mem_filter, sortedLabels, (List.mergeSort_perm _ _).mem_iff,
    decide_eq_true_iff]

/-! ## Rows -/

/-- The rows of an instruction: the labels that point at it, and the instruction. -/
def block (pending : List (String × Nat)) (shown : Instruction × Nat) : List Row :=
  (pending.filter (·.2 == shown.2)).map (fun label => .label label.1) ++
    [.instruction shown.2 shown.1]

variable {index : Nat} {pending : List (String × Nat)}

/-- The labels at the head of those pending are all that point at an index. -/
theorem filter_eq_takeWhile (hsorted : pending.Pairwise fun a b => a.2 ≤ b.2)
    (hle : ∀ label ∈ pending, index ≤ label.2) :
    pending.filter (·.2 == index) = pending.takeWhile (·.2 == index) := by
  have hrest : (pending.dropWhile (·.2 == index)).filter (·.2 == index) = [] := by
    refine List.filter_eq_nil_iff.2 fun label hlabel => ?_
    have hlt := lt_of_mem_dropWhile hsorted hle hlabel
    rw [beq_iff_eq]
    exact hlt.ne'
  calc pending.filter (·.2 == index)
      = (pending.takeWhile (·.2 == index)).filter (·.2 == index) ++
          (pending.dropWhile (·.2 == index)).filter (·.2 == index) := by
        rw [← List.filter_append, List.takeWhile_append_dropWhile]
    _ = pending.takeWhile (·.2 == index) := by
        rw [hrest, List.append_nil, List.filter_eq_self.2 fun _ => List.mem_takeWhile_imp]

/-- The labels that point at an index do not matter for what is said of the others. -/
theorem filter_dropWhile {p : String × Nat → Bool}
    (hp : ∀ label : String × Nat, label.2 = index → p label = false) :
    (pending.dropWhile (·.2 == index)).filter p = pending.filter p := by
  have hfront : (pending.takeWhile (·.2 == index)).filter p = [] := by
    refine List.filter_eq_nil_iff.2 fun label hlabel => ?_
    have hindex : label.2 = index := by simpa using List.mem_takeWhile_imp hlabel
    rw [hp label hindex]
    exact Bool.false_ne_true
  nth_rewrite 2 [← List.takeWhile_append_dropWhile (p := (·.2 == index)) (l := pending)]
  rw [List.filter_append, hfront, List.nil_append]

/-- The rows of instructions from an index on, told from the labels of each index. None of the
    labels points at an instruction in front. -/
theorem rows_eq (instructions : List Instruction)
    (hsorted : pending.Pairwise fun a b => a.2 ≤ b.2) (hle : ∀ label ∈ pending, index ≤ label.2) :
    rows index pending instructions = (instructions.zipIdx index).flatMap (block pending) ++
      (pending.filter (index + instructions.length ≤ ·.2)).map fun label => .label label.1 := by
  induction instructions generalizing index pending with
  | nil =>
    have hall : pending.filter (index + ([] : List Instruction).length ≤ ·.2) = pending :=
      List.filter_eq_self.2 fun label hlabel => decide_eq_true (hle label hlabel)
    rw [rows, List.zipIdx_nil, List.flatMap_nil, List.nil_append, hall]
  | cons instruction rest ih =>
    have hblocks : (rest.zipIdx (index + 1)).flatMap (block (pending.dropWhile (·.2 == index))) =
        (rest.zipIdx (index + 1)).flatMap (block pending) := by
      refine List.flatMap_congr fun shown hshown => ?_
      have hlt : index < shown.2 := List.le_snd_of_mem_zipIdx hshown
      rw [block, filter_dropWhile fun label hlabel => by simp [hlabel, hlt.ne], block]
    have hbeyond : index + 1 + rest.length = index + (instruction :: rest).length := by
      rw [List.length_cons]
      omega
    rw [rows, ih (hsorted.sublist (List.dropWhile_sublist _))
      fun label hlabel => lt_of_mem_dropWhile hsorted hle hlabel, hblocks, hbeyond,
      filter_dropWhile fun label hlabel => by simp [hlabel], List.zipIdx_cons, List.flatMap_cons,
      block, filter_eq_takeWhile hsorted hle]
    simp only [List.append_assoc, List.cons_append, List.nil_append]

/-- No label and no instruction is left out, or shown twice. -/
theorem rows_perm (index : Nat) (pending : List (String × Nat)) (instructions : List Instruction) :
    (rows index pending instructions).Perm
      (pending.map (fun label => .label label.1) ++
        (instructions.zipIdx index).map fun shown => .instruction shown.2 shown.1) := by
  induction instructions generalizing index pending with
  | nil => rw [rows, List.zipIdx_nil, List.map_nil, List.append_nil]
  | cons instruction rest ih =>
    have hlabels : pending.map (fun label => Row.label label.1) =
        (pending.takeWhile (·.2 == index)).map (fun label => .label label.1) ++
          (pending.dropWhile (·.2 == index)).map fun label => .label label.1 := by
      rw [← List.map_append, List.takeWhile_append_dropWhile]
    rw [rows, hlabels, List.zipIdx_cons, List.map_cons, List.append_assoc]
    -- The instruction changes places with the labels that are left behind it.
    exact (((ih _ _).cons _).trans List.perm_middle.symm).append_left _

end Listing

/-! ## Listings -/

namespace Program

variable {program : Program} {entries : List (String × Nat)}

theorem arrangement_eq (program : Program) : program.arrangement = program.rows := by
  have hblock : block (sortedLabels program.labels) = fun shown =>
      (program.labels.namesAt shown.2).map .label ++ [.instruction shown.2 shown.1] := by
    funext shown
    rw [block, filter_sortedLabels, LabelTable.namesAt, List.map_map]
    rfl
  rw [rows, rows_eq _ (pairwise_sortedLabels _) fun _ _ => Nat.zero_le _, hblock, Nat.zero_add]
  rfl

/-- The order of the entries does not matter. -/
theorem listingOf_eq (h : entries.Perm program.labels.toList) :
    program.listingOf entries = program.listing := by
  rw [listingOf, mergeSort_precedes_eq h]
  rfl

theorem listing_eq (program : Program) :
    program.listing = String.join (program.arrangement.map fun row => row.line ++ "\n") := by
  rw [listing, listingLines_eq, arrangement_eq, List.map_map]
  rfl

theorem arrangement_perm (h : entries.Perm program.labels.toList) :
    program.arrangement.Perm
      (entries.map (fun label => .label label.1) ++
        program.instructions.toList.zipIdx.map fun shown => .instruction shown.2 shown.1) := by
  rw [arrangement_eq, rows]
  refine (rows_perm _ _ _).trans (List.Perm.append_right _ (List.Perm.map _ ?_))
  exact (List.mergeSort_perm _ _).trans h.symm

theorem nodup_arrangement (program : Program) : program.arrangement.Nodup := by
  rw [(arrangement_perm (List.Perm.refl _)).nodup_iff, List.nodup_append]
  refine ⟨?_, ?_, fun label hlabel shown hshown => ?_⟩
  · exact List.pairwise_map.2 ((pairwise_toList program.labels).imp fun hlt heq =>
      hlt.ne (Row.label.inj heq))
  · have hnumbers : (program.instructions.toList.zipIdx.map Prod.snd).Nodup := by
      rw [List.zipIdx_map_snd]
      exact List.nodup_range'
    exact List.pairwise_map.2 ((List.pairwise_map.1 hnumbers).imp fun hne heq =>
      hne (Row.instruction.inj heq).1)
  · obtain ⟨_, _, rfl⟩ := List.mem_map.1 hlabel
    obtain ⟨_, _, rfl⟩ := List.mem_map.1 hshown
    exact nofun

end Program

/-- Whatever the order in which the table has its entries, the listing of a program has for each
    instruction the labels of its index, in the order of their names by code points, and then
    the index, of four digits at least, with the instruction; and behind the last instruction
    the labels from there on, in the order of their indices and then of their names. Each
    label and each instruction is shown once. So programs with the same instructions and the
    same indices of names have the same listing. -/
theorem listing_arrangement (program : Program) (entries : List (String × Nat))
    (h : entries.Perm program.labels.toList) :
    program.listingOf entries = program.listing ∧
    program.listing = String.join (program.arrangement.map fun
      | .label name => name ++ ":\n"
      | .instruction index instruction =>
        String.ofList ((Nat.toDigits 10 index).leftpad 4 '0') ++ "  " ++ instruction.text ++
          "\n") ∧
    (∀ index, (program.labels.namesAt index).Pairwise (· < ·) ∧
      ∀ name, name ∈ program.labels.namesAt index ↔ (name, index) ∈ entries) ∧
    (∀ index, (program.labels.labelsFrom index).Pairwise
        (fun a b => a.2 < b.2 ∨ a.2 = b.2 ∧ a.1 < b.1) ∧
      ∀ label, label ∈ program.labels.labelsFrom index ↔ label ∈ entries ∧ index ≤ label.2) ∧
    program.arrangement.Nodup ∧
    program.arrangement.Perm
      (entries.map (fun label => .label label.1) ++
        program.instructions.toList.zipIdx.map fun shown => .instruction shown.2 shown.1) ∧
    ∀ (other : Program) (others : List (String × Nat)), others.Perm other.labels.toList →
      other.instructions = program.instructions →
      (∀ name, other.labels.get? name = program.labels.get? name) →
      other.listingOf others = program.listingOf entries := by
  refine ⟨Program.listingOf_eq h, ?_, fun index => ⟨pairwise_namesAt _ index, fun name => ?_⟩,
    fun index => ⟨(pairwise_lex_sortedLabels _).sublist List.filter_sublist, fun label => ?_⟩,
    program.nodup_arrangement, Program.arrangement_perm h, fun other others hother hinstructions
    hlabels => ?_⟩
  · rw [Program.listing_eq]
    congr 2
    funext row
    cases row with
    | label name => exact String.append_assoc
    | instruction index instruction => rfl
  · rw [mem_namesAt, h.mem_iff]
  · rw [mem_labelsFrom, h.mem_iff]
  · obtain ⟨instructions, labels⟩ := other
    obtain rfl := hinstructions
    obtain rfl : labels = program.labels := LabelTable.ext_get? hlabels
    rw [Program.listingOf_eq hother, Program.listingOf_eq h]

/-- A program of two instructions, with labels in front of them and beyond them. -/
def labelsAround : Program where
  instructions := #[
    ⟨.add, [.ofText "r0".toList, .ofText "[16]".toList], 1⟩,
    ⟨.hlt, [], 2⟩]
  labels :=
    (((((∅ : LabelTable).insert "end" 7).insert "b" 0).insert "Z" 3).insert "a" 0).insert "c" 1

/-- The labels are listed in their order, although they come in another one. -/
theorem listing_arrangement_labelsAround :
    labelsAround.listingOf [("END", 7), ("B", 0), ("C", 1), ("Z", 3), ("A", 0)] =
      "A:\nB:\n0000  ADD r0, [16]\nC:\n0001  HLT\nZ:\nEND:\n" := by
  obtain ⟨heq, hlisting, -⟩ := listing_arrangement labelsAround
    [("END", 7), ("B", 0), ("C", 1), ("Z", 3), ("A", 0)] (by decide +kernel)
  rw [heq, hlisting]
  cbv

end RegisterMachine
