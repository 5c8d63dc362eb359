import RegisterMachine.Proofs.Assembly

/-!
# Labels of source lines

A line defines a name if its body begins with a label of that name, up to the case of
ASCII letters. Of several lines that define a name the last one counts: the entry of
the name is the number of the instructions in front of that line.

* `LabelTable.get?_insertAll`: of the entries that are added, the last of a name counts;
* `LabelTable.get?_eq_none_iff`: a name has no index if no entry is of that name;
* `SourceLines.get?_of_lastDefinition`: a name has the index of its last definition;
* `SourceLines.exists_get?_iff`: the other names have none;
* `SourceLines.labelsWithin_program`: no index exceeds the number of instructions.
-/

namespace RegisterMachine

/-- The labels of a program point at its instructions, or behind the last one. -/
def Program.LabelsWithin (program : Program) : Prop :=
  ∀ name index, program.labels.get? name = some index → index ≤ program.instructions.size

/-! ## Entries -/

namespace LabelTable

/-- The index in the last entry of a name. -/
def last? (name : String) (entries : List (String × Nat)) : Option Nat :=
  (entries.reverse.find? (·.1.toUpper == name.toUpper)).map (·.2)

variable {name : String} {entries others : List (String × Nat)}

theorem last?_append :
    last? name (entries ++ others) = (last? name others).or (last? name entries) := by
  rw [last?, List.reverse_append, List.find?_append, Option.map_or, last?, last?]

theorem last?_eq_none_iff :
    last? name entries = none ↔ ∀ entry ∈ entries, entry.1.toUpper ≠ name.toUpper := by
  simp [last?]

/-- The entry that counts is of the name, and none behind it is. -/
theorem last?_eq_some_iff {index : Nat} :
    last? name entries = some index ↔ ∃ before other after,
      entries = before ++ (other, index) :: after ∧ other.toUpper = name.toUpper ∧
        ∀ entry ∈ after, entry.1.toUpper ≠ name.toUpper := by
  constructor
  · intro h
    obtain ⟨⟨other, found⟩, hfind, rfl⟩ := Option.map_eq_some_iff.1 h
    obtain ⟨hupper, front, back, hentries, hfront⟩ := List.find?_eq_some_iff_append.1 hfind
    refine ⟨back.reverse, other, front.reverse, ?_, by simpa using hupper, fun entry hentry => ?_⟩
    · rw [← List.reverse_inj, hentries]
      simp
    · simpa using hfront entry (List.mem_reverse.1 hentry)
  · rintro ⟨before, other, after, rfl, hupper, hafter⟩
    rw [last?_append, ← List.singleton_append, last?_append, last?_eq_none_iff.2 hafter]
    simp [last?, hupper]

theorem last?_map_add (shift : Nat) :
    last? name (entries.map fun entry => (entry.1, entry.2 + shift)) =
      (last? name entries).map (· + shift) := by
  rw [last?, ← List.map_reverse, List.find?_map, last?, Option.map_map, Option.map_map]
  rfl

theorem get?_insertAll (table : LabelTable) (name : String) (entries : List (String × Nat)) :
    (table.insertAll entries).get? name = (last? name entries).or (table.get? name) := by
  induction entries generalizing table with
  | nil => rfl
  | cons entry rest ih =>
    rw [insertAll, List.foldl_cons, ← insertAll, ih, get?_insert, ← List.singleton_append,
      last?_append, Option.or_assoc]
    congr 1
    by_cases h : entry.1.toUpper = name.toUpper <;> simp [last?, h]

/-- Some name in a table is the given one, up to the case of its letters. -/
def Lists (labels : LabelTable) (name : String) : Prop :=
  ∃ entry ∈ labels.toList, entry.1.toUpper = name.toUpper

variable {labels : LabelTable} {index : Nat}

theorem mem_toList : (name, index) ∈ labels.toList ↔ labels.entries[name]? = some index :=
  Std.ExtTreeMap.mem_toList_iff_getElem?_eq_some

/-- The names in a table are in upper case. -/
theorem toUpper_of_mem_toList (h : (name, index) ∈ labels.toList) : name.toUpper = name :=
  labels.upper name (Std.ExtTreeMap.mem_iff_isSome_getElem?.2 (by rw [mem_toList.1 h]; rfl))

theorem lists_of_get? (h : labels.get? name = some index) : labels.Lists name :=
  ⟨(name.toUpper, index), mem_toList.2 h, Case.toUpper_toUpper name⟩

theorem get?_eq_none_iff : labels.get? name = none ↔ ¬ labels.Lists name := by
  constructor
  · rintro hnone ⟨⟨other, index⟩, hmem, hupper⟩
    rw [get?, ← hupper, toUpper_of_mem_toList hmem, mem_toList.1 hmem] at hnone
    cases hnone
  · intro h
    rcases hget : labels.get? name with _ | index
    · rfl
    · exact absurd (lists_of_get? hget) h

end LabelTable

/-! ## Definitions -/

namespace Grammar

/-- A line defines a name: its body begins with a label of that name, whatever the case
    of the letters. -/
def Defines (text : List Char) (name : String) : Prop :=
  ∃ label rest, Line.body text = label ++ ':' :: rest ∧ Name label ∧
    (String.ofList label).toUpper = name.toUpper

/-- The last of the lines that define a name is the one of a number. -/
def LastDefinition (texts : List (List Char)) (name : String) (number : Nat) : Prop :=
  ∃ before text after, texts = before ++ text :: after ∧ Defines text name ∧
    (∀ later ∈ after, ¬ Defines later name) ∧ number = before.length + 1

theorem LastDefinition.exists_eq_add_one {texts : List (List Char)} {name : String}
    {number : Nat} (h : LastDefinition texts name number) : ∃ n, number = n + 1 := by
  obtain ⟨before, -, -, -, -, -, rfl⟩ := h
  exact ⟨before.length, rfl⟩

theorem label_eq_some_iff {text : List Char} {label : String} :
    (Line.ofText text).label = some label ↔
      ∃ name rest, Line.body text = name ++ ':' :: rest ∧ Name name ∧
        label = String.ofList name := by
  rw [Line.ofText]
  constructor
  · intro h
    obtain hcolon | ⟨name, rest, hbody, hname⟩ := colon_notMem_or_exists_colon (Line.body text)
    · rw [Line.ofBody_of_colon_notMem hcolon] at h
      cases h
    · rw [hbody, Line.ofBody_append hname] at h
      split at h
      · next hisName =>
        cases h
        exact ⟨name, rest, hbody, isName_iff.1 hisName, rfl⟩
      · cases h
  · rintro ⟨name, rest, hbody, hname, rfl⟩
    rw [hbody, Line.ofBody_append hname.colon_notMem, if_pos (isName_iff.2 hname)]

theorem defines_iff {text : List Char} {name : String} :
    Defines text name ↔
      ∃ label, (Line.ofText text).label = some label ∧ label.toUpper = name.toUpper := by
  simp only [label_eq_some_iff]
  constructor
  · rintro ⟨label, rest, hbody, hname, hupper⟩
    exact ⟨_, ⟨label, rest, hbody, hname, rfl⟩, hupper⟩
  · rintro ⟨_, ⟨label, rest, hbody, hname, rfl⟩, hupper⟩
    exact ⟨label, rest, hbody, hname, hupper⟩

/-- If a line defines a name, then there is a last one that does. -/
theorem exists_lastDefinition {texts : List (List Char)} {name : String}
    (h : ∃ text ∈ texts, Defines text name) : ∃ number, LastDefinition texts name number := by
  induction texts with
  | nil =>
    obtain ⟨text, htext, -⟩ := h
    cases htext
  | cons text rest ih =>
    by_cases hrest : ∃ later ∈ rest, Defines later name
    · obtain ⟨number, before, last, after, rfl, hdefines, hafter, rfl⟩ := ih hrest
      exact ⟨_, text :: before, last, after, rfl, hdefines, hafter, rfl⟩
    · obtain ⟨found, hfound, hdefines⟩ := h
      obtain rfl | hmem := List.mem_cons.1 hfound
      · exact ⟨1, [], found, rest, rfl, hdefines, fun later hlater hlast =>
          hrest ⟨later, hlater, hlast⟩, rfl⟩
      · exact absurd ⟨found, hmem, hdefines⟩ hrest

end Grammar

namespace SourceLines

open Grammar LabelTable

variable {count : Nat} {name : String} {texts : List (List Char)}

/-- Lines that do not define a name have no entry for it. -/
theorem last?_labels_eq_none (h : ∀ text ∈ texts, ¬ Defines text name) :
    last? name (labels count texts) = none := by
  induction texts generalizing count with
  | nil => rfl
  | cons text rest ih =>
    obtain ⟨htext, hrest⟩ := List.forall_mem_cons.1 h
    rw [labels, last?_append, ih hrest, Option.none_or, last?_eq_none_iff]
    rcases hlabel : (Line.ofText text).label with _ | label
    · intro entry hentry
      cases hentry
    · rintro entry (_ | ⟨_, ⟨⟩⟩) hupper
      exact htext (defines_iff.2 ⟨label, hlabel, hupper⟩)

theorem last?_labels {before after : List (List Char)} {text : List Char} (h : Defines text name)
    (hafter : ∀ later ∈ after, ¬ Defines later name) :
    last? name (labels count (before ++ text :: after)) = some (count + size before) := by
  obtain ⟨label, hlabel, hupper⟩ := defines_iff.1 h
  rw [labels_append, labels, last?_append, last?_append, last?_labels_eq_none hafter, hlabel]
  simp [last?, hupper]

theorem get?_program (texts : List (List Char)) (name : String) :
    (program texts).labels.get? name = last? name (labels 0 texts) := by
  rw [program, get?_insertAll, get?_empty, Option.or_none]

/-- A name that is defined has the number of the instructions in front of its last definition. -/
theorem get?_of_lastDefinition {number : Nat} (h : LastDefinition texts name (number + 1)) :
    (program texts).labels.get? name = some (size (texts.take number)) := by
  obtain ⟨before, text, after, rfl, hdefines, hafter, hnumber⟩ := h
  obtain rfl := Nat.succ.inj hnumber
  rw [get?_program, last?_labels hdefines hafter, Nat.zero_add, List.take_left]

/-- A name has an index if and only if a line defines it. -/
theorem exists_get?_iff :
    (∃ index, (program texts).labels.get? name = some index) ↔
      ∃ text ∈ texts, Defines text name := by
  constructor
  · rintro ⟨index, hindex⟩
    by_contra h
    rw [get?_program, last?_labels_eq_none fun text htext hdefines => h ⟨text, htext, hdefines⟩]
      at hindex
    cases hindex
  · intro h
    obtain ⟨_, hlast⟩ := exists_lastDefinition h
    obtain ⟨number, rfl⟩ := hlast.exists_eq_add_one
    exact ⟨_, get?_of_lastDefinition hlast⟩

theorem size_program (texts : List (List Char)) :
    (program texts).instructions.size = size texts :=
  @length_instructions 1 texts

theorem labelsWithin_program (texts : List (List Char)) : (program texts).LabelsWithin := by
  intro name index hindex
  obtain ⟨_, hlast⟩ := exists_lastDefinition (exists_get?_iff.1 ⟨index, hindex⟩)
  obtain ⟨number, rfl⟩ := hlast.exists_eq_add_one
  rw [get?_of_lastDefinition hlast, Option.some.injEq] at hindex
  have hsplit : size texts = size (texts.take number) + size (texts.drop number) := by
    rw [← size_append, List.take_append_drop]
  rw [size_program]
  omega

end SourceLines

end RegisterMachine
