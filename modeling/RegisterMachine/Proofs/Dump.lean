import Mathlib.Data.List.FinRange
import RegisterMachine.Memory
import RegisterMachine.Proofs.AddressingMode

/-!
# Dumps

The dump of a memory has a message on each cell that does not hold zero, from the first to
the last (`Memory.messages`). A message is read by cutting it at its blank: in front of it
there is the address, in hexadecimal and in brackets, and behind it the word in decimal
(`Memory.readCell?`). Addresses have two digits or more, and zeros in front do not count.

So a dump tells the whole memory, as a cell of which there is no message holds zero
(`Memory.ofDump`), and memories with the same dump are equal.

* `Numeral.ofHexadecimal_hexadecimal`: numbers in hexadecimal read back;
* `Memory.dump_eq_messages`: the memory is shown cell by cell;
* `Memory.ofDump_dump`: the memory is restored from its dump;
* `Memory.dump_cells`: all of this for two memories.
-/

namespace RegisterMachine

/-! ## Hexadecimal numerals -/

namespace Numeral

/-- The value of a hexadecimal digit in upper case. -/
def hexadecimalDigit (c : Char) : Nat :=
  if c.isDigit then c.toNat - '0'.toNat else c.toNat - 'A'.toNat + 10

/-- The number that hexadecimal digits stand for. -/
def ofHexadecimal (digits : List Char) : Nat :=
  digits.foldl (fun value c => 16 * value + hexadecimalDigit c) 0

variable {width n : Nat}

theorem hexadecimalDigit_digitChar (h : n < 16) : hexadecimalDigit n.digitChar.toUpper = n := by
  have hall : ∀ digit : Fin 16, hexadecimalDigit (Nat.digitChar digit).toUpper = digit := by
    decide
  exact hall ⟨n, h⟩

theorem ofHexadecimal_concat (digits : List Char) (c : Char) :
    ofHexadecimal (digits ++ [c]) = 16 * ofHexadecimal digits + hexadecimalDigit c :=
  List.foldl_append

theorem ofHexadecimal_toDigits (n : Nat) :
    ofHexadecimal ((Nat.toDigits 16 n).map Char.toUpper) = n := by
  induction n using Nat.strongRecOn with
  | ind n ih =>
    by_cases hlt : n < 16
    · rw [Nat.toDigits_of_lt_base hlt, List.map_singleton, ← List.nil_append [_],
        ofHexadecimal_concat, hexadecimalDigit_digitChar hlt]
      exact Nat.zero_add n
    · rw [Nat.toDigits_of_base_le (by decide) (Nat.not_lt.1 hlt), List.map_append,
        List.map_singleton, ofHexadecimal_concat, ih (n / 16) (by omega),
        hexadecimalDigit_digitChar (Nat.mod_lt n (by decide)), Nat.div_add_mod]

theorem ofHexadecimal_replicate_append (k : Nat) (digits : List Char) :
    ofHexadecimal (List.replicate k '0' ++ digits) = ofHexadecimal digits := by
  induction k with
  | zero => rfl
  | succ k ih => exact ih

/-- A number in hexadecimal reads back, with zeros in front or without. -/
theorem ofHexadecimal_hexadecimal (width n : Nat) :
    ofHexadecimal (hexadecimal width n).toList = n := by
  rw [hexadecimal, String.toList_ofList, List.leftpad, ofHexadecimal_replicate_append,
    ofHexadecimal_toDigits]

theorem exists_of_mem_toDigits {c : Char} (h : c ∈ Nat.toDigits 16 n) :
    ∃ digit : Fin 16, c = Nat.digitChar digit := by
  induction n using Nat.strongRecOn with
  | ind n ih =>
    by_cases hlt : n < 16
    · rw [Nat.toDigits_of_lt_base hlt, List.mem_singleton] at h
      exact ⟨⟨n, hlt⟩, h⟩
    · rw [Nat.toDigits_of_base_le (by decide) (Nat.not_lt.1 hlt), List.mem_append,
        List.mem_singleton] at h
      exact h.elim (ih (n / 16) (by omega)) fun h => ⟨⟨n % 16, Nat.mod_lt n (by decide)⟩, h⟩

/-- The digits of a number in hexadecimal are not blank. -/
theorem blank_notMem_hexadecimal (width n : Nat) : ' ' ∉ (hexadecimal width n).toList := by
  rw [hexadecimal, String.toList_ofList, List.leftpad, List.mem_append, List.mem_replicate,
    List.mem_map]
  rintro (⟨-, hzero⟩ | ⟨c, hc, hupper⟩)
  · exact absurd hzero (by decide)
  · obtain ⟨digit, rfl⟩ := exists_of_mem_toDigits hc
    clear hc
    revert digit
    decide

end Numeral

/-! ## The messages of a dump -/

namespace Memory

variable {size : Nat}

/-- The messages on the cells that do not hold zero, from the first to the last. -/
def messages (memory : Memory size) : Log :=
  (((List.finRange size).filter (memory.cells.get · ≠ Word.zero)).map fun address =>
    ⟨.info, cellText address (memory.cells.get address)⟩).toArray

theorem dump_eq_messages (memory : Memory size) :
    memory.dump = memory.messages := by
  have hzip : memory.cells.toList.zipIdx =
      (List.finRange size).map fun address => (memory.cells.get address, address.val) := by
    refine List.ext_getElem (by simp) fun i _ _ => ?_
    simp only [List.getElem_zipIdx, List.getElem_map, List.getElem_finRange, Vector.getElem_toList,
      Nat.zero_add]
    rfl
  rw [dump, messages, nonzero, hzip, List.filterMap_map, List.map_filterMap,
    ← List.filterMap_eq_map, List.filterMap_filter]
  congr 1
  refine List.filterMap_congr fun address _ => ?_
  by_cases h : memory.cells.get address = Word.zero <;> simp [h]

/-- The address and the number that a message on a cell tells. -/
def readCell? (text : String) : Option (Nat × Int) := do
  let (front, number) ← Split.cut? (· == ' ') text.toList
  let value ← Numeral.integer? number
  return (Numeral.ofHexadecimal (front.drop 3).dropLast, value)

/-- The memory that messages tell of. A cell of which there is no message holds zero. -/
def ofDump (size : Nat) (log : Log) : Memory size :=
  let told := log.toList.filterMap (readCell? ·.text)
  ⟨Vector.ofFn fun address => Word.saturate ((told.lookup address.val).getD 0)⟩

theorem toList_cellText (address : Nat) (word : Word) : (cellText address word).toList =
    ('[' :: '0' :: 'x' :: ((Numeral.hexadecimal 2 address).toList ++ [']'])) ++
      ' ' :: (toString word.toInt).toList := by
  change ("[0x" ++ Numeral.hexadecimal 2 address ++ "] " ++ toString word.toInt).toList = _
  simp

/-- A message on a cell tells its address and its word. -/
theorem readCell?_cellText (address : Nat) (word : Word) :
    readCell? (cellText address word) = some (address, word.toInt) := by
  have hblank : ' ' ∉ '[' :: '0' :: 'x' :: ((Numeral.hexadecimal 2 address).toList ++ [']']) := by
    simp [Numeral.blank_notMem_hexadecimal]
  have hnumber : Numeral.integer? (toString word.toInt).toList = some word.toInt :=
    Numeral.integer?_eq_some_iff.2 (Numeral.integer_toString _)
  simp only [readCell?, toList_cellText, Split.cut?_append hblank, hnumber, Option.bind_eq_bind,
    Option.bind_some, List.drop_succ_cons, List.drop_zero, List.dropLast_concat,
    Numeral.ofHexadecimal_hexadecimal]
  rfl

/-- What is told of an address among others is its value, if there is one. -/
theorem lookup_map_address (value : Fin size → Int) (addresses : List (Fin size))
    (address : Fin size) :
    (addresses.map fun address => (address.val, value address)).lookup address.val =
      if address ∈ addresses then some (value address) else none := by
  induction addresses with
  | nil => rfl
  | cons first rest ih =>
    rw [List.map_cons, List.lookup_cons]
    obtain rfl | hne := eq_or_ne address first
    · rw [beq_self_eq_true, if_pos List.mem_cons_self]
    · have hval : (address.val == first.val) = false :=
        beq_eq_false_iff_ne.2 fun h => hne (Fin.ext h)
      rw [hval, ih]
      simp only [List.mem_cons, hne, false_or]

/-- The memory is restored from its dump. -/
theorem ofDump_dump (memory : Memory size) : ofDump size memory.dump = memory := by
  have htold : memory.dump.toList.filterMap (readCell? ·.text) =
      ((List.finRange size).filter (memory.cells.get · ≠ Word.zero)).map fun address =>
        (address.val, (memory.cells.get address).toInt) := by
    rw [dump_eq_messages, messages, List.filterMap_map, ← List.filterMap_eq_map]
    exact List.filterMap_congr fun address _ => readCell?_cellText address _
  refine Memory.ext (Vector.ext fun i hi => ?_)
  simp only [ofDump, htold, Vector.getElem_ofFn]
  rw [lookup_map_address (fun address => (memory.cells.get address).toInt) _ ⟨i, hi⟩]
  by_cases hzero : memory.cells.get ⟨i, hi⟩ = Word.zero
  · rw [if_neg (by simp [hzero])]
    exact (Word.saturate_toInt Word.zero).trans hzero.symm
  · rw [if_pos (by simp [hzero])]
    exact Word.saturate_toInt _

/-- The dump of a memory has one message on each cell that does not hold zero and none on the
    others, in the order of the addresses. Memories of the same size have the same dump if and
    only if all of their cells are equal, and a memory is restored from its dump. -/
theorem dump_cells (memory : Memory size) :
    (∃ addresses : List (Fin size), addresses.Pairwise (· < ·) ∧
      (∀ address, address ∈ addresses ↔ memory.cells.get address ≠ Word.zero) ∧
      memory.dump.toList = addresses.map fun address =>
        ⟨.info, cellText address (memory.cells.get address)⟩) ∧
    (∀ other : Memory size, memory.dump = other.dump ↔
      ∀ address, memory.cells.get address = other.cells.get address) ∧
    ofDump size memory.dump = memory := by
  refine ⟨⟨(List.finRange size).filter (memory.cells.get · ≠ Word.zero), ?_, fun address => ?_, ?_⟩,
    fun other => ⟨fun h => ?_, fun h => ?_⟩, ofDump_dump memory⟩
  · exact (List.pairwise_lt_finRange size).sublist List.filter_sublist
  · rw [List.mem_filter, decide_eq_true_iff, and_iff_right (List.mem_finRange address)]
  · rw [dump_eq_messages]
    rfl
  · have heq : memory = other := by rw [← ofDump_dump memory, h, ofDump_dump]
    exact fun address => by rw [heq]
  · rw [Memory.ext (Vector.ext fun i hi => h ⟨i, hi⟩)]

/-- An address beyond `0xFF` has more digits. -/
example : (zero.set 299 (Word.saturate (-5)) : Memory 300).dump = #[⟨.info, "[0x12B] -5"⟩] := by
  decide +kernel

end Memory

end RegisterMachine
