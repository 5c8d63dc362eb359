import RegisterMachine.Proofs.Depth
import RegisterMachine.Proofs.Safety

/-!
# When a step ends with a fault

Whether a step succeeds, and with which fault it ends if it does not, can be told from the
state in front of it, without the order in which an instruction acts. Of the kinds of
faults, two come from the operands of an instruction: an operand that is nothing to read
or to write, and a position without a cell. Each of the others has conditions of its own, a
*refusal*. A refusal goes before the operands, unless it is about their values; and there are
never refusals of two kinds at once (`step_fault_iff`).

* `Opcode.accesses`: what an operation does with its operands;
* `Machine.denial?`: the fault for which an access is denied;
* `Refusal`, `Machine.Refuses`: the conditions of the other faults;
* `Instruction.effect_of_refusal`, `Instruction.refusal_or_denial_of_effect`: the effect of
  an instruction is a fault if it is refused, and only if it is refused or one of its accesses
  denied;
* `Machine.faults_iff`: the same of a step, where refusals go before denied accesses.
-/

namespace RegisterMachine

/-! ## Accesses -/

/-- What an operation does with an operand. -/
inductive Access
  | read (mode : Mode)
  | write (mode : Mode)
  deriving DecidableEq

namespace Opcode

/-- The accesses of an operation to its operands, in their order. -/
def accesses : Opcode → List Operand → List Access
  | .mov, [destination, source] => [.read source.mode, .write destination.mode]
  | .push, [source] | .out, [source] => [.read source.mode]
  | .pop, [destination] => [.write destination.mode]
  | .add, [destination, source] | .sub, [destination, source] | .mol, [destination, source]
  | .div, [destination, source] | .and, [destination, source] | .or, [destination, source] =>
    [.read destination.mode, .read source.mode, .write destination.mode]
  | .inc, [destination] | .dec, [destination] | .not, [destination] =>
    [.read destination.mode, .write destination.mode]
  | .cmp, [left, right] => [.read left.mode, .read right.mode]
  | _, _ => []

/-- The exact result of an operation is outside of the range that the operation checks. An
    operation on one operand disregards `y`. -/
def OutOfRange : Opcode → Int → Int → Prop
  | .add, x, y => x + y < -32768 ∨ 32767 < x + y
  | .sub, x, y => x - y < -32768 ∨ 32767 < x - y
  | .mol, x, y => x * y < -32768 ∨ 32767 < x * y
  | .inc, x, _ => 32767 < x + 1
  | .dec, x, _ => x - 1 < -32768
  | _, _, _ => False

instance : (opcode : Opcode) → (x y : Int) → Decidable (opcode.OutOfRange x y)
  | .add, x, y => inferInstanceAs (Decidable (x + y < -32768 ∨ 32767 < x + y))
  | .sub, x, y => inferInstanceAs (Decidable (x - y < -32768 ∨ 32767 < x - y))
  | .mol, x, y => inferInstanceAs (Decidable (x * y < -32768 ∨ 32767 < x * y))
  | .inc, x, _ => inferInstanceAs (Decidable (32767 < x + 1))
  | .dec, x, _ => inferInstanceAs (Decidable (x - 1 < -32768))
  | .mov, _, _ | .push, _, _ | .pop, _, _ | .div, _, _ | .and, _, _ | .or, _, _ | .not, _, _
  | .cmp, _, _ | .jmp, _, _ | .jz, _, _ | .jnz, _, _ | .js, _, _ | .call, _, _ | .ret, _, _
  | .out, _, _ | .hlt, _, _ => inferInstanceAs (Decidable False)

theorem exactWord_eq_error_iff {result : Int} {kind : FaultKind} :
    exactWord result = .error kind ↔
      kind = .arithmeticOverflow ∧ (result < -32768 ∨ 32767 < result) := by
  rw [exactWord]
  split
  · constructor
    · rintro ⟨⟩
    · rintro ⟨-, hrange⟩
      omega
  · constructor
    · intro h
      exact ⟨(Except.error.inj h).symm, by omega⟩
    · rintro ⟨rfl, -⟩
      rfl

theorem exact_eq_error_iff {opcode : Opcode} {x y : Int} {kind : FaultKind} :
    opcode.exact x y = .error kind ↔
      kind = .arithmeticOverflow ∧ opcode.OutOfRange x y ∨
        kind = .divisionByZero ∧ opcode = .div ∧ y = 0 := by
  cases opcode with
  | add | sub | mol => simp [exact, OutOfRange, exactWord_eq_error_iff]
  | div | inc | dec =>
    rw [exact]
    split <;> simp_all [OutOfRange, eq_comm]
  | _ => simp [exact, OutOfRange]

end Opcode

namespace Machine

variable {machine : Machine} {labels : LabelTable} {opcode : Opcode} {operands : List Operand}
  {kind : FaultKind}

/-- The fault for want of a cell at a position. -/
def cellDenial? (position : Int) : Option FaultKind :=
  if 0 ≤ position ∧ position ≤ 255 then none else some .invalidMemoryAccess

/-- The fault for which an access is denied, if it is: there is nothing to read or to write, or
    no cell at the position. -/
def denial? (machine : Machine) : Access → Option FaultKind
  | .read .symbol | .write .symbol | .write (.immediate _) => some .invalidOperand
  | .read mode | .write mode => (machine.position? mode).bind cellDenial?

theorem cellDenial?_eq (position : Int) :
    cellDenial? position =
      if (Memory.address? 256 position).isSome then none else some .invalidMemoryAccess := by
  rw [cellDenial?, Memory.address?]
  congr 1
  split <;> simp <;> omega

theorem denial?_read_eq_some_iff {mode : Mode} :
    machine.denial? (.read mode) = some kind ↔ machine.read mode = .error kind := by
  have hcell (position : Int) :
      cellDenial? position = some kind ↔ machine.readCell position = .error kind := by
    rw [cellDenial?_eq, readCell, Memory.read?]
    cases Memory.address? 256 position <;> simp
  cases mode with
  | register | immediate | symbol => simp [denial?, read, position?]
  | direct address => exact hcell address.toInt
  | indirect register => exact hcell (machine.register register).toInt

theorem denial?_write_eq_some_iff {mode : Mode} :
    machine.denial? (.write mode) = some kind ↔ machine.locate mode = .error kind := by
  have hcell (position : Int) :
      cellDenial? position = some kind ↔ locateCell position = .error kind := by
    rw [cellDenial?_eq, locateCell]
    cases Memory.address? 256 position <;> simp
  cases mode with
  | register | immediate | symbol => simp [denial?, locate, position?]
  | direct address => exact hcell address.toInt
  | indirect register => exact hcell (machine.register register).toInt

theorem denial?_read_of_ok {mode : Mode} {value : Value} (h : machine.read mode = .ok value) :
    machine.denial? (.read mode) = none :=
  Option.eq_none_iff_forall_ne_some.2 fun kind hdenial => by
    rw [denial?_read_eq_some_iff, h] at hdenial
    cases hdenial

theorem denial?_write_of_ok {mode : Mode} {location : Location}
    (h : machine.locate mode = .ok location) : machine.denial? (.write mode) = none :=
  Option.eq_none_iff_forall_ne_some.2 fun kind hdenial => by
    rw [denial?_write_eq_some_iff, h] at hdenial
    cases hdenial

theorem eq_of_denial? {access : Access} (h : machine.denial? access = some kind) :
    kind = .invalidOperand ∨ kind = .invalidMemoryAccess := by
  have hcell {position : Int} (h : cellDenial? position = some kind) :
      kind = .invalidMemoryAccess := by
    rw [cellDenial?] at h
    split at h
    · cases h
    · exact (Option.some.inj h).symm
  cases access with
  | read mode =>
    cases mode with
    | register | immediate => cases h
    | direct | indirect => exact .inr (hcell h)
    | symbol => exact .inl (Option.some.inj h).symm
  | write mode =>
    cases mode with
    | register => cases h
    | direct | indirect => exact .inr (hcell h)
    | immediate | symbol => exact .inl (Option.some.inj h).symm

end Machine

/-! ## Refusals -/

/-- The conditions under which an operation is refused, with the kind of the fault, but for
    the operands that are denied. -/
inductive Refusal (labels : LabelTable) (machine : Machine) :
    Opcode → List Operand → FaultKind → Prop
  /-- There are too few operands, or too many. -/
  | count {opcode : Opcode} {operands : List Operand} :
      operands.length ≠ opcode.arity →
      Refusal labels machine opcode operands .operandCountMismatch
  /-- There is no room on the stack. -/
  | full {opcode : Opcode} {operand : Operand} :
      opcode.pushes → machine.sp = 0 →
      Refusal labels machine opcode [operand] .stackOverflow
  /-- There is nothing on the stack. -/
  | empty {opcode : Opcode} {operands : List Operand} :
      operands.length = opcode.arity → opcode.pops → machine.sp = 256 →
      Refusal labels machine opcode operands .stackUnderflow
  /-- There is no label to jump to. A call looks for room on the stack first. -/
  | label {opcode : Opcode} {operand : Operand} :
      machine.jumps opcode → (opcode = .call → 0 < machine.sp) →
      ¬ labels.Lists operand.token →
      Refusal labels machine opcode [operand] .undefinedLabel
  /-- The address to return to is no word. -/
  | call {operand : Operand} :
      0 < machine.sp → labels.Lists operand.token → 32767 < machine.pc + 1 →
      Refusal labels machine .call [operand] .executionOutOfBounds
  /-- The word on top of the stack is no address to return to. -/
  | ret {address : Fin 256} :
      (address : Nat) = machine.sp → (machine.cell address).toInt < 0 →
      Refusal labels machine .ret [] .executionOutOfBounds
  /-- The divisor is zero. -/
  | zero {destination source : Operand} {x y : Value} :
      machine.read destination.mode = .ok x → machine.read source.mode = .ok y → y.toInt = 0 →
      Refusal labels machine .div [destination, source] .divisionByZero
  /-- The result of an operation on two operands is out of range. -/
  | binary {opcode : Opcode} {destination source : Operand} {x y : Value} :
      opcode.arity = 2 → machine.read destination.mode = .ok x →
      machine.read source.mode = .ok y → opcode.OutOfRange x.toInt y.toInt →
      Refusal labels machine opcode [destination, source] .arithmeticOverflow
  /-- The result of an operation on one operand is out of range. -/
  | unary {opcode : Opcode} {destination : Operand} {x : Value} :
      opcode.arity = 1 → machine.read destination.mode = .ok x → opcode.OutOfRange x.toInt 0 →
      Refusal labels machine opcode [destination] .arithmeticOverflow

section

variable {machine : Machine} {labels : LabelTable} {opcode : Opcode} {operands : List Operand}
  {instruction : Instruction} {kind : FaultKind} {destination source operand : Operand}
  {x y : Value}

/-- Refusals have nothing to do with the kinds of faults that come from operands. -/
theorem Refusal.kind_ne (h : Refusal labels machine opcode operands kind) :
    kind ≠ .invalidOperand ∧ kind ≠ .invalidMemoryAccess := by
  cases h <;> exact ⟨nofun, nofun⟩

/-! ## Refusals are faults -/

theorem Machine.binary_of_exact (hx : machine.read destination.mode = .ok x)
    (hy : machine.read source.mode = .ok y)
    (hexact : opcode.exact x.toInt y.toInt = .error kind) :
    machine.binary opcode destination source = .error kind := by
  simp only [binary, hx, hy, hexact, ok_bind]
  rfl

theorem Machine.unary_of_exact (hx : machine.read destination.mode = .ok x)
    (hexact : opcode.exact x.toInt 0 = .error kind) :
    machine.unary opcode destination = .error kind := by
  simp only [unary, hx, hexact, ok_bind]
  rfl

theorem Machine.branch_eq_error_iff :
    machine.branch labels opcode operand = .error kind ↔
      kind = .undefinedLabel ∧ machine.takes opcode ∧ labels.get? operand.token = none := by
  rw [branch]
  by_cases htakes : machine.takes opcode
  · rcases labels.get? operand.token with _ | target <;> simp [htakes, eq_comm]
  · simp [htakes]

theorem Instruction.effect_of_refusal
    (h : Refusal labels machine instruction.opcode instruction.operands kind) :
    instruction.effect labels machine = .error kind := by
  obtain ⟨opcode, operands, line⟩ := instruction
  cases h with
  | count hcount => exact effect_of_length_ne hcount
  | full hpushes hsp =>
    cases opcode with
    | push | call => simp only [effect, if_pos hsp]
    | _ => cases hpushes
  | empty hcount hpops hsp =>
    have htop : machine.top? = .error .stackUnderflow :=
      Machine.top?_eq_error_iff.2 ⟨rfl, hsp.ge⟩
    cases opcode with
    | pop =>
      obtain ⟨destination, rfl⟩ := List.length_eq_one_iff.1 hcount
      simp only [effect, htop]
      rfl
    | ret =>
      obtain rfl := List.length_eq_zero_iff.1 hcount
      simp only [effect, htop]
      rfl
    | _ => cases hpops
  | label hjumps hroom hlists =>
    have hget := LabelTable.get?_eq_none_iff.2 hlists
    cases opcode with
    | jmp | jz | jnz | js => exact Machine.branch_eq_error_iff.2 ⟨rfl, hjumps, hget⟩
    | call => simp only [effect, if_neg (hroom rfl).ne', hget]
    | _ => cases hjumps
  | call hsp hlists hpc =>
    rcases hget : labels.get? _ with _ | target
    · exact absurd hlists (LabelTable.get?_eq_none_iff.1 hget)
    · simp only [effect, if_neg hsp.ne', hget, Word.ofNat?_eq_none_iff.2 hpc]
  | ret haddress hnegative =>
    simp only [effect, Machine.top?_eq_cell haddress, ok_bind, if_neg (not_le.2 hnegative)]
    rfl
  | zero hx hy hzero =>
    exact Machine.binary_of_exact hx hy (Opcode.exact_eq_error_iff.2 (.inr ⟨rfl, rfl, hzero⟩))
  | binary harity hx hy hrange =>
    have hbinary := Machine.binary_of_exact hx hy
      (Opcode.exact_eq_error_iff.2 (.inl ⟨rfl, hrange⟩))
    cases opcode with
    | add | sub | mol => exact hbinary
    | inc | dec => cases harity
    | _ => cases hrange
  | unary harity hx hrange =>
    have hunary := Machine.unary_of_exact hx
      (Opcode.exact_eq_error_iff.2 (.inl ⟨rfl, hrange⟩))
    cases opcode with
    | inc | dec => exact hunary
    | add | sub | mol => cases harity
    | _ => cases hrange

/-! ## Faults are refusals, or denied accesses -/

/-- A fault of what begins with a read is that of the read, or one of what comes next. -/
theorem Machine.or_denial_of_read_bind {P : Prop} {mode : Mode} {rest : List Access}
    {next : Value → Except FaultKind Effect} (h : (machine.read mode >>= next) = .error kind)
    (hnext : ∀ value, machine.read mode = .ok value → next value = .error kind →
      P ∨ rest.findSome? machine.denial? = some kind) :
    P ∨ (.read mode :: rest).findSome? machine.denial? = some kind := by
  rw [List.findSome?_cons]
  obtain hread | ⟨value, hread, h⟩ := bind_eq_error_iff.1 h
  · rw [denial?_read_eq_some_iff.2 hread]
    exact .inr rfl
  · rw [denial?_read_of_ok hread]
    exact hnext value hread h

/-- A destination is located last, when nothing else can fail. -/
theorem Machine.denial_of_locate_bind {mode : Mode} {next : Location → Effect}
    (h : (machine.locate mode >>= fun location => pure (next location)) = .error kind) :
    [.write mode].findSome? machine.denial? = some kind := by
  obtain hlocation | ⟨location, -, hpure⟩ := bind_eq_error_iff.1 h
  · rw [List.findSome?_cons, denial?_write_eq_some_iff.2 hlocation]
  · cases hpure

theorem Machine.refusal_or_denial_of_binary (harity : opcode.arity = 2)
    (h : machine.binary opcode destination source = .error kind) :
    Refusal labels machine opcode [destination, source] kind ∨
      [.read destination.mode, .read source.mode, .write destination.mode].findSome?
        machine.denial? = some kind := by
  refine or_denial_of_read_bind h fun x hx h => or_denial_of_read_bind h fun y hy h => ?_
  obtain hexact | ⟨result, -, h⟩ := bind_eq_error_iff.1 h
  · obtain ⟨rfl, hrange⟩ | ⟨rfl, rfl, hzero⟩ := Opcode.exact_eq_error_iff.1 hexact
    · exact .inl (.binary harity hx hy hrange)
    · exact .inl (.zero hx hy hzero)
  · exact .inr (denial_of_locate_bind h)

theorem Machine.refusal_or_denial_of_unary (harity : opcode.arity = 1)
    (h : machine.unary opcode destination = .error kind) :
    Refusal labels machine opcode [destination] kind ∨
      [.read destination.mode, .write destination.mode].findSome? machine.denial? = some kind := by
  refine or_denial_of_read_bind h fun x hx h => ?_
  obtain hexact | ⟨result, -, h⟩ := bind_eq_error_iff.1 h
  · obtain ⟨rfl, hrange⟩ | ⟨-, rfl, -⟩ := Opcode.exact_eq_error_iff.1 hexact
    · exact .inl (.unary harity hx hrange)
    · cases harity
  · exact .inr (denial_of_locate_bind h)

theorem Machine.refusal_of_branch (hbranches : opcode.branches)
    (h : machine.branch labels opcode operand = .error kind) :
    Refusal labels machine opcode [operand] kind := by
  obtain ⟨rfl, htakes, hget⟩ := branch_eq_error_iff.1 h
  rw [takes_eq_jumps hbranches] at htakes
  refine .label htakes ?_ (LabelTable.get?_eq_none_iff.1 hget)
  rintro rfl
  cases hbranches

theorem Machine.refusal_of_top? (hsp : machine.sp ≤ 256) (harity : operands.length = opcode.arity)
    (hpops : opcode.pops) (h : machine.top? = .error kind) :
    Refusal labels machine opcode operands kind := by
  obtain ⟨rfl, hle⟩ := top?_eq_error_iff.1 h
  exact .empty harity hpops (hsp.antisymm hle)

theorem Instruction.refusal_or_denial_of_effect (hsp : machine.sp ≤ 256)
    (h : instruction.effect labels machine = .error kind) :
    Refusal labels machine instruction.opcode instruction.operands kind ∨
      (instruction.opcode.accesses instruction.operands).findSome? machine.denial? = some kind := by
  by_cases harity : instruction.operands.length = instruction.opcode.arity
  swap
  · rw [effect_of_length_ne harity] at h
    cases h
    exact .inl (.count harity)
  obtain ⟨opcode, operands, line⟩ := instruction
  -- What is asked about the stack and the labels comes first; then the operands are accessed one
  -- after the other, and what is asked about their values comes before the last access.
  cases opcode with
  | mov =>
    obtain ⟨destination, source, rfl⟩ := List.length_eq_two.1 harity
    exact Machine.or_denial_of_read_bind h fun _ _ h => .inr (Machine.denial_of_locate_bind h)
  | push =>
    obtain ⟨source, rfl⟩ := List.length_eq_one_iff.1 harity
    simp only [effect] at h
    split at h
    · next hfull =>
      cases h
      exact .inl (.full rfl hfull)
    · exact Machine.or_denial_of_read_bind h fun _ _ h => by cases h
  | pop =>
    obtain ⟨destination, rfl⟩ := List.length_eq_one_iff.1 harity
    obtain htop | ⟨word, -, h⟩ := bind_eq_error_iff.1 h
    · exact .inl (Machine.refusal_of_top? hsp rfl rfl htop)
    · exact .inr (Machine.denial_of_locate_bind h)
  | add | sub | mol | div | and | or =>
    obtain ⟨destination, source, rfl⟩ := List.length_eq_two.1 harity
    exact Machine.refusal_or_denial_of_binary rfl h
  | inc | dec | not =>
    obtain ⟨destination, rfl⟩ := List.length_eq_one_iff.1 harity
    exact Machine.refusal_or_denial_of_unary rfl h
  | cmp =>
    obtain ⟨left, right, rfl⟩ := List.length_eq_two.1 harity
    exact Machine.or_denial_of_read_bind h fun _ _ h =>
      Machine.or_denial_of_read_bind h fun _ _ h => by cases h
  | jmp | jz | jnz | js =>
    obtain ⟨operand, rfl⟩ := List.length_eq_one_iff.1 harity
    exact .inl (Machine.refusal_of_branch rfl h)
  | call =>
    obtain ⟨operand, rfl⟩ := List.length_eq_one_iff.1 harity
    simp only [effect] at h
    refine .inl ?_
    split at h
    · next hfull =>
      cases h
      exact .full rfl hfull
    · next hfull =>
      have hroom := Nat.pos_of_ne_zero hfull
      split at h
      · cases h
      · next hget =>
        cases h
        exact .label rfl (fun _ => hroom) (LabelTable.get?_eq_none_iff.1 hget)
      · next target hget hword =>
        cases h
        exact .call hroom (LabelTable.lists_of_get? hget) (Word.ofNat?_eq_none_iff.1 hword)
  | ret =>
    obtain rfl := List.length_eq_zero_iff.1 harity
    refine .inl ?_
    obtain htop | ⟨word, htop, h⟩ := bind_eq_error_iff.1 h
    · exact Machine.refusal_of_top? hsp rfl rfl htop
    · split at h
      · cases h
      · next hnegative =>
        cases h
        obtain ⟨address, haddress, rfl⟩ := Machine.cell_of_top? htop
        exact .ret haddress (not_le.1 hnegative)
  | out =>
    obtain ⟨source, rfl⟩ := List.length_eq_one_iff.1 harity
    exact Machine.or_denial_of_read_bind h fun _ _ h => by cases h
  | hlt =>
    obtain rfl := List.length_eq_zero_iff.1 harity
    cases h

/-- No access of an operation that succeeds is denied. -/
theorem Machine.denial?_of_transition {change : Change}
    (h : Transition labels machine opcode operands change) :
    ∀ access ∈ opcode.accesses operands, machine.denial? access = none := by
  cases h with
  | mov hread hlocation =>
    simp [Opcode.accesses, denial?_read_of_ok hread, denial?_write_of_ok hlocation]
  | push _ hread | out hread => simp [Opcode.accesses, denial?_read_of_ok hread]
  | pop _ hlocation => simp [Opcode.accesses, denial?_write_of_ok hlocation]
  | binary hstores hx hy _ hlocation =>
    cases opcode with
    | add | sub | mol | div | and | or =>
      simp [Opcode.accesses, denial?_read_of_ok hx, denial?_read_of_ok hy,
        denial?_write_of_ok hlocation]
    | inc | dec | not => exact nofun
    | _ => cases hstores
  | unary hstores hx _ hlocation =>
    cases opcode with
    | inc | dec | not =>
      simp [Opcode.accesses, denial?_read_of_ok hx, denial?_write_of_ok hlocation]
    | add | sub | mol | div | and | or => exact nofun
    | _ => cases hstores
  | cmp hx hy => simp [Opcode.accesses, denial?_read_of_ok hx, denial?_read_of_ok hy]
  | jump hbranches | skip hbranches =>
    cases opcode with
    | jmp | jz | jnz | js => exact nofun
    | _ => cases hbranches
  | call | ret | hlt => exact nofun

end

/-! ## Steps -/

namespace Machine

/-- The next step ends with a fault of a kind. -/
def Faults (machine : Machine) (program : Program) (kind : FaultKind) : Prop :=
  ∃ line, (machine.step program).outcome = .fault ⟨kind, line⟩

/-- The accesses of the next step to the operands of its instruction. -/
def accesses (machine : Machine) (program : Program) : List Access :=
  match machine.current? program with
  | some instruction => instruction.opcode.accesses instruction.operands
  | none => []

/-- The conditions under which the next step is refused, but for operands that are denied. -/
inductive Refuses (machine : Machine) (program : Program) : FaultKind → Prop
  /-- The program counter is at no instruction. -/
  | ended : program.instructions.size ≤ machine.pc → machine.Refuses program .executionOutOfBounds
  /-- The operation of the instruction is refused. -/
  | refused {instruction : Instruction} {kind : FaultKind} :
      machine.current? program = some instruction →
      Refusal program.labels machine instruction.opcode instruction.operands kind →
      machine.Refuses program kind

variable {machine : Machine} {program : Program} {kind other : FaultKind}

theorem accesses_of_current? {instruction : Instruction}
    (h : machine.current? program = some instruction) :
    machine.accesses program = instruction.opcode.accesses instruction.operands := by
  rw [accesses, h]

theorem Faults.kind_eq (h : machine.Faults program kind) (hother : machine.Faults program other) :
    kind = other := by
  obtain ⟨line, hline⟩ := h
  obtain ⟨line', hline'⟩ := hother
  cases hline.symm.trans hline'
  rfl

theorem outcome_of_refusal {instruction : Instruction} (hhalted : machine.halted = false)
    (hcurrent : machine.current? program = some instruction)
    (h : Refusal program.labels machine instruction.opcode instruction.operands kind) :
    (machine.step program).outcome = .fault ⟨kind, some instruction.line⟩ := by
  rw [step, if_neg (by simp [hhalted]), hcurrent]
  simp only [Instruction.run_execute, Instruction.effect_of_refusal h]
  rfl

theorem faults_of_refuses (hhalted : machine.halted = false) (h : machine.Refuses program kind) :
    machine.Faults program kind := by
  cases h with
  | ended hsize =>
    exact ⟨none, step_of_current?_eq_none hhalted (current?_eq_none_iff.2 hsize)⟩
  | refused hcurrent hrefusal => exact ⟨_, outcome_of_refusal hhalted hcurrent hrefusal⟩

theorem refuses_or_denial_of_faults (hsp : machine.sp ≤ 256) (h : machine.Faults program kind) :
    machine.Refuses program kind ∨
      (machine.accesses program).findSome? machine.denial? = some kind := by
  obtain ⟨line, h⟩ := h
  cases stepping machine program with
  | halted _ hstep | unfit _ _ _ _ hstep | executed _ _ _ _ hstep =>
    rw [hstep] at h
    cases h
  | ended _ hcurrent hstep =>
    rw [hstep] at h
    cases h
    exact .inl (.ended (current?_eq_none_iff.1 hcurrent))
  | refused _ hcurrent heffect hstep =>
    rw [hstep] at h
    cases h
    rw [accesses_of_current? hcurrent]
    exact (Instruction.refusal_or_denial_of_effect hsp heffect).imp_left (.refused hcurrent)

theorem Refuses.kind_ne (h : machine.Refuses program kind) :
    kind ≠ .invalidOperand ∧ kind ≠ .invalidMemoryAccess := by
  cases h with
  | ended => exact ⟨nofun, nofun⟩
  | refused _ hrefusal => exact hrefusal.kind_ne

theorem kind_of_findSome?_denial? {accesses : List Access}
    (h : accesses.findSome? machine.denial? = some kind) :
    kind = .invalidOperand ∨ kind = .invalidMemoryAccess := by
  obtain ⟨access, -, hdenial⟩ := List.exists_of_findSome?_eq_some h
  exact eq_of_denial? hdenial

theorem denial?_of_step_done (hhalted : machine.halted = false)
    (h : (machine.step program).outcome = .done) :
    ∀ access ∈ machine.accesses program, machine.denial? access = none := by
  obtain ⟨instruction, change, hcurrent, htransition, -⟩ := step_transition hhalted h
  rw [accesses_of_current? hcurrent]
  exact denial?_of_transition htransition

/-- A step of a machine whose stack lies in the memory is done, or ends with a fault. -/
theorem step_done_or_faults (program : Program) (hsp : machine.sp ≤ 256) :
    (machine.step program).outcome = .done ∨ ∃ kind, machine.Faults program kind := by
  rcases h : (machine.step program).outcome with _ | ⟨kind, line⟩ | defect
  · exact .inl rfl
  · exact .inr ⟨kind, line, h⟩
  · exact absurd h (step_outcome_ne_defect hsp defect)

/-- Refusals go before denied accesses, of which the first one counts. -/
theorem faults_iff (hhalted : machine.halted = false) (hsp : machine.sp ≤ 256) :
    machine.Faults program kind ↔ machine.Refuses program kind ∨
      (∀ other, ¬ machine.Refuses program other) ∧
        (machine.accesses program).findSome? machine.denial? = some kind := by
  constructor
  · intro h
    -- A fault of a denied access is of another kind than those of refusals, and there is only one.
    refine (refuses_or_denial_of_faults hsp h).imp_right fun hdenial =>
      ⟨fun other hrefuses => ?_, hdenial⟩
    obtain rfl := h.kind_eq (faults_of_refuses hhalted hrefuses)
    exact (kind_of_findSome?_denial? hdenial).elim hrefuses.kind_ne.1 hrefuses.kind_ne.2
  · rintro (hrefuses | ⟨hnone, hdenial⟩)
    · exact faults_of_refuses hhalted hrefuses
    obtain hdone | ⟨other, hfaults⟩ := step_done_or_faults program hsp
    · rw [List.findSome?_eq_none_iff.2 (denial?_of_step_done hhalted hdone)] at hdenial
      cases hdenial
    · have hother := (refuses_or_denial_of_faults hsp hfaults).resolve_left (hnone other)
      rw [hdenial] at hother
      cases hother
      exact hfaults

/-- A step of a machine that is not halted ends with a fault exactly if it is refused, or
    if it is not refused but some access of the instruction is denied. The fault is of the
    kind of the refusal, or of the first access that is denied. Otherwise the step is done. -/
theorem step_fault_iff (program : Program) (machine : Machine) (hhalted : machine.halted = false)
    (hsp : machine.sp ≤ 256) :
    (∀ kind, kind ≠ .invalidOperand → kind ≠ .invalidMemoryAccess →
      (machine.Faults program kind ↔ machine.Refuses program kind)) ∧
    (∀ kind, kind = .invalidOperand ∨ kind = .invalidMemoryAccess →
      (machine.Faults program kind ↔ (∀ other, ¬ machine.Refuses program other) ∧
        (machine.accesses program).findSome? machine.denial? = some kind)) ∧
    ((machine.Faults program .invalidOperand ∨ machine.Faults program .invalidMemoryAccess) ↔
      (∀ other, ¬ machine.Refuses program other) ∧
        ∃ access ∈ machine.accesses program, machine.denial? access ≠ none) ∧
    ((machine.step program).outcome = .done ↔
      (∀ kind, ¬ machine.Refuses program kind) ∧
        ∀ access ∈ machine.accesses program, machine.denial? access = none) := by
  have hdenied (kind : FaultKind) (hkind : kind = .invalidOperand ∨ kind = .invalidMemoryAccess) :
      machine.Faults program kind ↔ (∀ other, ¬ machine.Refuses program other) ∧
        (machine.accesses program).findSome? machine.denial? = some kind := by
    refine (faults_iff hhalted hsp).trans (or_iff_right fun hrefuses => ?_)
    exact hkind.elim hrefuses.kind_ne.1 hrefuses.kind_ne.2
  refine ⟨fun kind hoperand hmemory => ?_, hdenied, ?_, ?_⟩
  · refine (faults_iff hhalted hsp).trans (or_iff_left fun ⟨_, hdenial⟩ => ?_)
    exact (kind_of_findSome?_denial? hdenial).elim hoperand hmemory
  · rw [hdenied _ (.inl rfl), hdenied _ (.inr rfl), ← and_or_left]
    refine and_congr_right fun _ => ⟨?_, fun ⟨access, hmem, hdenial⟩ => ?_⟩
    · rintro (h | h) <;> obtain ⟨access, hmem, hdenial⟩ := List.exists_of_findSome?_eq_some h <;>
        exact ⟨access, hmem, by rw [hdenial]; exact nofun⟩
    · rcases hfind : (machine.accesses program).findSome? machine.denial? with _ | kind
      · exact absurd (List.findSome?_eq_none_iff.1 hfind access hmem) hdenial
      · exact (kind_of_findSome?_denial? hfind).imp (congrArg some) (congrArg some)
  · constructor
    · intro hdone
      refine ⟨fun kind hrefuses => ?_, denial?_of_step_done hhalted hdone⟩
      obtain ⟨line, hline⟩ := faults_of_refuses hhalted hrefuses
      cases hdone.symm.trans hline
    · rintro ⟨hnone, hallowed⟩
      refine (step_done_or_faults program hsp).resolve_right fun ⟨kind, hfaults⟩ => ?_
      have hdenial := (refuses_or_denial_of_faults hsp hfaults).resolve_left (hnone kind)
      rw [List.findSome?_eq_none_iff.2 hallowed] at hdenial
      cases hdenial

/-- To add one to a greatest word is out of range, also where there is nothing to write it to. -/
theorem step_fault_iff_incImmediate :
    let program : Program := ⟨#[⟨.inc, [⟨"32767", .immediate 32767⟩], 1⟩], ∅⟩
    initial.halted = false ∧ initial.sp ≤ 256 ∧
      initial.Faults program .arithmeticOverflow ∧ ¬ initial.Faults program .invalidOperand ∧
      initial.denial? (.write (.immediate 32767)) = some .invalidOperand := by
  intro program
  have hrefuses : initial.Refuses program .arithmeticOverflow :=
    .refused rfl (.unary rfl rfl (by decide))
  obtain ⟨hrefused, hdenied, -⟩ := step_fault_iff program initial rfl (by decide)
  refine ⟨rfl, by decide, (hrefused .arithmeticOverflow nofun nofun).2 hrefuses, fun h => ?_, rfl⟩
  exact ((hdenied _ (.inl rfl)).1 h).1 _ hrefuses

end Machine

end RegisterMachine
