import RegisterMachine.Proofs.Footprint

/-!
# Reading and writing operands

What is read after a value has been written to an operand. The operand itself holds the value,
saturated to a word, and a second write replaces the first; an operand that denotes another
location, or none, reads as before. So far these are the laws of a row of independent cells.

But a register is also what an operand may go through: a word written to the register leads the
operand to another cell, or to none (`operand_access`).

* `Machine.read_eq_map_locate`: an operand is read from the location that it denotes, as it is
  written to it, unless it is an immediate value;
* `Machine.locate_setAt`: replacing the word at a location redirects the operands that go
  through it, and no others;
* `Machine.read_of_write`, `Machine.write_of_write`, `Machine.read_of_write_of_ne`,
  `Machine.read_indirect_of_write`: the laws of a write that succeeds.
-/

namespace RegisterMachine

theorem Memory.address?_eq_none_iff {size : Nat} {position : Int} :
    address? size position = none ↔ position < 0 ∨ size ≤ position := by
  rw [address?]
  split
  · simp only [reduceCtorEq, false_iff]
    omega
  · simp only [true_iff]
    omega

namespace Machine

variable {machine written : Machine} {mode other : Mode} {location : Location} {word : Word}
  {register : Register} {value : Value} {position : Int} {kind : FaultKind}

/-! ## Locations -/

theorem locateCell_natCast (address : Fin 256) :
    locateCell ((address : Nat) : Int) = .ok (.cell address) := by
  rw [locateCell, Memory.address?_natCast]

theorem locateCell_of_outside (h : position < 0 ∨ 255 < position) :
    locateCell position = .error .invalidMemoryAccess := by
  rw [locateCell, Memory.address?_eq_none_iff.2 h]

theorem locate_of_outside (hposition : machine.position? mode = some position)
    (h : position < 0 ∨ 255 < position) : machine.locate mode = .error .invalidMemoryAccess := by
  cases mode with
  | direct | indirect =>
    cases hposition
    exact locateCell_of_outside h
  | register | immediate | symbol => cases hposition

theorem locate_eq_register_iff :
    machine.locate mode = .ok (.register register) ↔ mode = .register register := by
  have hcell (position : Int) : locateCell position ≠ .ok (.register register) := by
    rw [locateCell]
    split <;> simp
  cases mode with
  | register | immediate | symbol => simp [locate]
  | direct | indirect => simpa [locate] using hcell _

theorem ne_immediate_of_locate (h : machine.locate mode = .ok location) (immediate : Value) :
    mode ≠ .immediate immediate := by
  rintro rfl
  cases h

theorem setAt_setAt (machine : Machine) (location : Location) (first second : Word) :
    (machine.setAt location first).setAt location second = machine.setAt location second := by
  cases location with
  | register register => simp only [setAt, setRegister, Vector.set_set]
  | cell address => simp only [setAt, Memory.set, Vector.set_set]

/-- Where an operand leads depends on no location but the register that it goes through. -/
theorem locate_setAt (h : ∀ register, location = .register register → mode ≠ .indirect register) :
    (machine.setAt location word).locate mode = machine.locate mode := by
  cases mode with
  | indirect register =>
    -- The register is not the location at which the word is replaced.
    have hword : (machine.setAt location word).wordAt (.register register) =
        machine.wordAt (.register register) :=
      wordAt_setAt_of_ne fun heq => h register heq rfl
    exact congrArg (fun word : Word => locateCell word.toInt) hword
  | register | immediate | direct | symbol => rfl

/-! ## Reading and writing -/

theorem readCell_eq (machine : Machine) (position : Int) :
    machine.readCell position =
      (locateCell position).map fun location => (machine.wordAt location).toValue := by
  rw [readCell, locateCell, Memory.read?]
  cases Memory.address? 256 position <;> rfl

/-- An operand is read from the location that it denotes, unless it is an immediate value. -/
theorem read_eq_map_locate (h : ∀ immediate, mode ≠ .immediate immediate) :
    machine.read mode =
      (machine.locate mode).map fun location => (machine.wordAt location).toValue := by
  cases mode with
  | register | symbol => rfl
  | immediate value => exact absurd rfl (h value)
  | direct | indirect => exact machine.readCell_eq _

theorem read_of_locate (h : machine.locate mode = .ok location) :
    machine.read mode = .ok (machine.wordAt location).toValue := by
  rw [read_eq_map_locate (ne_immediate_of_locate h), h, Except.map]

theorem write_of_locate (h : machine.locate mode = .ok location) (value : Value) :
    machine.write mode value = .ok (machine.setAt location (Word.saturate value.toInt)) := by
  rw [write_eq, h, Except.map]

/-- What denotes no location, and is no immediate value, is neither read nor written. -/
theorem read_write_of_locate_eq_error (hmode : ∀ immediate, mode ≠ .immediate immediate)
    (h : machine.locate mode = .error kind) (value : Value) :
    machine.read mode = .error kind ∧ machine.write mode value = .error kind := by
  rw [read_eq_map_locate hmode, write_eq, h]
  exact ⟨rfl, rfl⟩

theorem write_eq_ok_iff :
    machine.write mode value = .ok written ↔ ∃ location, machine.locate mode = .ok location ∧
      machine.setAt location (Word.saturate value.toInt) = written := by
  rw [write_eq]
  cases machine.locate mode <;> simp [Except.map]

/-- An operand can be written if it can be read, unless it is an immediate value. -/
theorem exists_write_eq_ok_iff :
    (∃ written, machine.write mode value = .ok written) ↔
      (∀ immediate, mode ≠ .immediate immediate) ∧ ∃ found, machine.read mode = .ok found := by
  constructor
  · rintro ⟨written, hwrite⟩
    obtain ⟨location, hlocate, -⟩ := write_eq_ok_iff.1 hwrite
    exact ⟨ne_immediate_of_locate hlocate, _, read_of_locate hlocate⟩
  · rintro ⟨hmode, found, hread⟩
    rcases hlocate : machine.locate mode with kind | location
    · rw [(read_write_of_locate_eq_error hmode hlocate value).1] at hread
      cases hread
    · exact ⟨_, write_of_locate hlocate value⟩

section

variable (h : machine.write mode value = .ok written)

include h

/-- An operand is not redirected by a write to itself. -/
theorem locate_of_write : written.locate mode = machine.locate mode := by
  obtain ⟨location, hlocate, rfl⟩ := write_eq_ok_iff.1 h
  refine locate_setAt ?_
  rintro register rfl
  simp [locate_eq_register_iff.1 hlocate]

/-- What has been written is read. -/
theorem read_of_write : written.read mode = .ok (Word.saturate value.toInt).toValue := by
  have hwritten := locate_of_write h
  obtain ⟨location, hlocate, rfl⟩ := write_eq_ok_iff.1 h
  rw [read_of_locate (hwritten.trans hlocate), wordAt_setAt_self]

/-- The second of two writes is all that remains of them. -/
theorem write_of_write (next : Value) : written.write mode next = machine.write mode next := by
  have hwritten := locate_of_write h
  obtain ⟨location, hlocate, rfl⟩ := write_eq_ok_iff.1 h
  rw [write_of_locate (hwritten.trans hlocate), write_of_locate hlocate, setAt_setAt]

/-- An operand that denotes another location, or none, reads as before, unless it goes through
    the register written. -/
theorem read_of_write_of_ne
    (hne : ¬ ∃ location, machine.locate mode = .ok location ∧ machine.locate other = .ok location)
    (hdirect : ∀ register, mode = .register register → other ≠ .indirect register) :
    written.read other = machine.read other := by
  obtain ⟨location, hlocate, rfl⟩ := write_eq_ok_iff.1 h
  by_cases hother : ∀ immediate, other ≠ .immediate immediate
  swap
  · -- An immediate value does not depend on the machine at all.
    obtain ⟨immediate, rfl⟩ := not_forall_not.1 hother
    rfl
  -- The write does not redirect the operand, so that the word is read from where it was before.
  have hsame : (machine.setAt location (Word.saturate value.toInt)).locate other =
      machine.locate other :=
    locate_setAt fun register heq => hdirect register (locate_eq_register_iff.1 (heq ▸ hlocate))
  rcases hfound : machine.locate other with kind | found
  · rw [(read_write_of_locate_eq_error hother hfound value).1,
      (read_write_of_locate_eq_error hother (hsame.trans hfound) value).1]
  · have hword : location ≠ found := fun heq => hne ⟨found, heq ▸ hlocate, hfound⟩
    rw [read_of_locate hfound, read_of_locate (hsame.trans hfound), wordAt_setAt_of_ne hword]

end

/-- An operand that goes through the register written leads to the cell at the new position. -/
theorem read_indirect_of_write (h : machine.write (.register register) value = .ok written) :
    written.read (.indirect register) = machine.readCell (Word.saturate value.toInt).toInt := by
  cases h
  have hword : (machine.setAt (.register register) (Word.saturate value.toInt)).wordAt
      (.register register) = Word.saturate value.toInt :=
    wordAt_setAt_self _ _
  exact congrArg (fun word : Word => machine.readCell word.toInt) hword

end Machine

/-! ## Accesses -/

namespace Execution

variable {α : Type} {workspace left : Workspace} {operand : Operand} {value : Value}

/-- What an action answers: its result, or the trap that it ends with. -/
def answer (action : Execution α) (workspace : Workspace) : Except Trap α :=
  match action.run workspace with
  | .ok result _ => .ok result
  | .error trap _ => .error trap

theorem run_read (workspace : Workspace) (operand : Operand) :
    (read operand).run workspace = match workspace.machine.read operand.mode with
      | .ok value => .ok value workspace
      | .error kind => .error (.fault kind) workspace := by
  rw [← bind_pure (read operand), run_read_bind]
  rfl

theorem run_write (workspace : Workspace) (operand : Operand) (value : Value) :
    (write operand value).run workspace = match workspace.machine.write operand.mode value with
      | .ok written => .ok () (workspace.update fun _ => written)
      | .error kind => .error (.fault kind) workspace := by
  rw [← bind_pure (write operand value), run_write_bind]
  rfl

theorem answer_read (workspace : Workspace) (operand : Operand) :
    (read operand).answer workspace =
      (workspace.machine.read operand.mode).mapError Trap.fault := by
  rw [answer, run_read]
  cases workspace.machine.read operand.mode <;> rfl

theorem answer_write (workspace : Workspace) (operand : Operand) (value : Value) :
    (write operand value).answer workspace =
      ((workspace.machine.write operand.mode value).map fun _ => ()).mapError Trap.fault := by
  rw [answer, run_write]
  cases workspace.machine.write operand.mode value <;> rfl

theorem run_read_eq_ok_iff {found : Value} :
    (read operand).run workspace = .ok found workspace ↔
      workspace.machine.read operand.mode = .ok found := by
  rw [run_read]
  cases workspace.machine.read operand.mode <;> simp

theorem run_write_eq_ok_iff :
    (write operand value).run workspace = .ok () left ↔ ∃ written,
      workspace.machine.write operand.mode value = .ok written ∧
        (workspace.update fun _ => written) = left := by
  rw [run_write]
  cases workspace.machine.write operand.mode value <;> simp

/-- A write that fails leaves everything as it was. -/
theorem eq_of_run_write_eq_error {trap : Trap}
    (h : (write operand value).run workspace = .error trap left) : left = workspace := by
  rw [run_write] at h
  split at h
  · cases h
  · cases h
    rfl

theorem exists_run_write_eq_ok_iff :
    (∃ left, (write operand value).run workspace = .ok () left) ↔
      (∀ immediate, operand.mode ≠ .immediate immediate) ∧
        ∃ found, (read operand).run workspace = .ok found workspace := by
  simp only [run_read_eq_ok_iff, run_write_eq_ok_iff]
  rw [← @Machine.exists_write_eq_ok_iff _ _ value]
  constructor
  · rintro ⟨left, written, hwrite, -⟩
    exact ⟨written, hwrite⟩
  · rintro ⟨written, hwrite⟩
    exact ⟨_, written, hwrite, rfl⟩

/-- Reading and writing are refused alike, unless the operand is an immediate value. -/
theorem answer_of_locate_eq_error {kind : FaultKind}
    (hmode : ∀ immediate, operand.mode ≠ .immediate immediate)
    (h : workspace.machine.locate operand.mode = .error kind) :
    (read operand).answer workspace = .error (.fault kind) ∧
      (write operand value).answer workspace = .error (.fault kind) := by
  obtain ⟨hread, hwrite⟩ := Machine.read_write_of_locate_eq_error hmode h value
  rw [answer_read, answer_write, hread, hwrite]
  exact ⟨rfl, rfl⟩

/-- A second write is as if there had been no first. -/
theorem run_write_of_run_write (h : (write operand value).run workspace = .ok () left)
    (next : Value) :
    (write operand next).run left = (write operand next).run workspace := by
  obtain ⟨written, hwrite, rfl⟩ := run_write_eq_ok_iff.1 h
  -- Whether a write succeeds does not depend on the value.
  obtain ⟨location, hlocate, -⟩ := Machine.write_eq_ok_iff.1 hwrite
  rw [run_write, run_write, Workspace.update, Machine.write_of_write hwrite,
    Machine.write_of_locate hlocate]
  rfl

/-- An operand can be written if and only if it can be read and is no immediate value. For a
    symbol, and for a position without a cell, either fails with the same fault; and a write that
    fails changes nothing. What has been written to an operand is read from it, as the nearest
    word, and a second write is as if there had been no first. What denotes another location, or
    none, reads as before; but an operand that goes through the register written leads to the
    cell whose address is the word written, and is a fault if there is none. -/
theorem operand_access (workspace : Workspace) (operand : Operand) (value : Value) :
    let nearest : Int := max (-32768) (min 32767 value.toInt)
    ((∃ left, (write operand value).run workspace = .ok () left) ↔
      (∀ immediate, operand.mode ≠ .immediate immediate) ∧
        ∃ found, (read operand).run workspace = .ok found workspace) ∧
    (operand.mode = .symbol →
      (read operand).answer workspace = .error (.fault .invalidOperand) ∧
        (write operand value).answer workspace = .error (.fault .invalidOperand)) ∧
    (∀ position, workspace.machine.position? operand.mode = some position →
      position < 0 ∨ 255 < position →
        (read operand).answer workspace = .error (.fault .invalidMemoryAccess) ∧
          (write operand value).answer workspace = .error (.fault .invalidMemoryAccess)) ∧
    (∀ trap left, (write operand value).run workspace = .error trap left → left = workspace) ∧
    ∀ left, (write operand value).run workspace = .ok () left →
      (∃ found, (read operand).run left = .ok found left ∧ found.toInt = nearest) ∧
      (∀ next, (write operand next).run left = (write operand next).run workspace) ∧
      ∀ other : Operand,
        ((¬ ∃ location, workspace.machine.locate operand.mode = .ok location ∧
            workspace.machine.locate other.mode = .ok location) →
          (∀ register, operand.mode = .register register → other.mode ≠ .indirect register) →
            (read other).answer left = (read other).answer workspace) ∧
        ∀ register, operand.mode = .register register → other.mode = .indirect register →
          (∀ address : Fin 256, ((address : Nat) : Int) = nearest →
            (read other).answer left = .ok (workspace.machine.cell address).toValue) ∧
          (nearest < 0 ∨ 255 < nearest →
            (read other).answer left = .error (.fault .invalidMemoryAccess)) := by
  intro nearest
  refine ⟨exists_run_write_eq_ok_iff, fun hsymbol => ?_, fun position hposition hout => ?_,
    fun trap left => eq_of_run_write_eq_error, fun left h => ?_⟩
  · refine answer_of_locate_eq_error (fun immediate => ?_) ?_ <;> rw [hsymbol]
    · exact Mode.noConfusion
    · rfl
  · refine answer_of_locate_eq_error ?_ (Machine.locate_of_outside hposition hout)
    rintro immediate himmediate
    rw [himmediate] at hposition
    cases hposition
  -- From here on the write is done, and the laws are those of the machine that it leaves.
  have hagain := run_write_of_run_write h
  obtain ⟨written, hwrite, rfl⟩ := run_write_eq_ok_iff.1 h
  refine ⟨⟨_, run_read_eq_ok_iff.2 (Machine.read_of_write hwrite), ?_⟩, hagain,
    fun other => ⟨fun hne hdirect => ?_, fun register hregister hother => ?_⟩⟩
  · rw [Word.toInt_toValue, Word.toInt_saturate]
  · rw [answer_read, answer_read, Workspace.update, Machine.read_of_write_of_ne hwrite hne hdirect]
  · rw [hregister] at hwrite
    have hread : written.read other.mode = workspace.machine.readCell nearest := by
      rw [hother, Machine.read_indirect_of_write hwrite, Word.toInt_saturate]
    rw [answer_read, Workspace.update, hread, Machine.readCell_eq]
    refine ⟨fun address haddress => ?_, fun hout => ?_⟩
    · rw [← haddress, Machine.locateCell_natCast]
      rfl
    · rw [Machine.locateCell_of_outside hout]
      rfl

/-- A register leads an operand to a cell, and after a further write to it, to none; another
    register keeps its word. -/
theorem operand_access_redirected :
    let workspace : Workspace := ⟨{ memory := Memory.zero.set 7 (Word.saturate 5) }, #[]⟩
    let pointer : Operand := ⟨"R1", .register ⟨1⟩⟩
    let target : Operand := ⟨"[R1]", .indirect ⟨1⟩⟩
    (read target).answer workspace = .ok 0 ∧
      ∃ first, (write pointer 7).run workspace = .ok () first ∧
        (read target).answer first = .ok 5 ∧
        ∃ second, (write pointer 40000).run first = .ok () second ∧
          (read pointer).run second = .ok 32767 second ∧
          (read target).answer second = .error (.fault .invalidMemoryAccess) ∧
          (read ⟨"R2", .register ⟨2⟩⟩).answer second = .ok 0 := by
  intro workspace pointer target
  obtain ⟨-, -, -, -, hfirst⟩ := operand_access workspace pointer 7
  obtain ⟨-, -, hredirect⟩ := hfirst _ rfl
  obtain ⟨hcell, -⟩ := (hredirect target).2 ⟨1⟩ rfl rfl
  refine ⟨rfl, _, rfl, hcell 7 (by decide), ?_⟩
  obtain ⟨-, -, -, -, hsecond⟩ :=
    operand_access (workspace.update (·.setRegister ⟨1⟩ (Word.saturate 7))) pointer 40000
  obtain ⟨⟨found, hread, hfound⟩, -, hother⟩ := hsecond _ rfl
  obtain rfl : found = 32767 := Int64.toInt_inj.1 (hfound.trans (by decide))
  obtain ⟨-, hnowhere⟩ := (hother target).2 ⟨1⟩ rfl rfl
  refine ⟨_, rfl, hread, hnowhere (by decide), ?_⟩
  refine ((hother ⟨"R2", .register ⟨2⟩⟩).1 ?_ fun _ _ => nofun).trans rfl
  rintro ⟨location, hpointer, hsame⟩
  cases hpointer
  cases hsame

end Execution

end RegisterMachine
