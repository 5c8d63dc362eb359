import RegisterMachine.Machine.Execution
import RegisterMachine.Proofs.ExactArithmetic
import RegisterMachine.Proofs.Location

/-!
# Effects

What an instruction does to a machine, as a function of the state before it: either
it is refused with a fault, or it makes one *change*, about which it leaves a
message. All that can fail is decided before the change is made, and the change
itself cannot fail. The results of arithmetic are exact integers.

* `Change`: the changes there are, with what they do to the state
  (`Change.apply`) and to the flow of control (`Change.flow`);
* `Instruction.effect`: the change that an instruction makes, or its fault;
* `Transition`: the same as a relation, one rule for each way to succeed.

`Instruction.transition` reads the rule off a successful effect. An invariant of
the machine is proved by cases on it. Conversely, `Transition.exists_effect`: with
the right number of operands, what is by a rule is an effect.
-/

namespace RegisterMachine

theorem ok_bind {ε α β : Type} (result : α) (next : α → Except ε β) :
    (Except.ok result >>= next) = next result := rfl

theorem bind_eq_ok_iff {ε α β : Type} {first : Except ε α} {next : α → Except ε β} {result : β} :
    (first >>= next) = .ok result ↔ ∃ found, first = .ok found ∧ next found = .ok result := by
  constructor
  · intro h
    obtain kind | found := first
    · cases h
    · exact ⟨found, rfl, h⟩
  · rintro ⟨found, rfl, h⟩
    exact h

theorem bind_eq_error_iff {α β : Type} {first : Except FaultKind α}
    {next : α → Except FaultKind β} {kind : FaultKind} :
    (first >>= next) = .error kind ↔
      first = .error kind ∨ ∃ found, first = .ok found ∧ next found = .error kind := by
  constructor
  · intro h
    obtain other | found := first
    · exact .inl (congrArg Except.error (Except.error.inj h))
    · exact .inr ⟨found, rfl, h⟩
  · rintro (rfl | ⟨found, rfl, h⟩)
    · rfl
    · exact h

theorem pure_eq_ok_iff {α : Type} {first result : α} :
    (pure first : Except FaultKind α) = .ok result ↔ first = result :=
  ⟨Except.ok.inj, congrArg _⟩

theorem Word.toInt_of_ofNat? {n : Nat} {word : Word} (h : Word.ofNat? n = some word) :
    word.toInt = n := by
  rw [Word.ofNat?] at h
  split at h
  · cases h
    rfl
  · cases h

theorem Word.ofNat?_eq_none_iff {n : Nat} : Word.ofNat? n = none ↔ 32767 < n := by
  rw [Word.ofNat?]
  split <;> simp <;> omega

/-- The memory with a cell replaced, if there is such a cell. -/
def Memory.put {size : Nat} (memory : Memory size) (address : Nat) (word : Word) : Memory size :=
  if h : address < size then memory.set ⟨address, h⟩ word else memory

namespace Machine

variable (machine : Machine)

/-- The state with the flags set by an exact result. -/
def flag (result : Int) : Machine :=
  { machine with flags := ⟨decide (result = 0), decide (result < 0)⟩ }

/-- The state with a word pushed onto the stack. -/
def push (word : Word) : Machine :=
  { machine with sp := machine.sp - 1, memory := machine.memory.put (machine.sp - 1) word }

/-- The state with the top taken off the stack. -/
def drop : Machine := { machine with sp := machine.sp + 1 }

/-- The word on top of the stack. -/
def top? : Except FaultKind Word :=
  match machine.memory.cells[machine.sp]? with
  | some word => .ok word
  | none => .error .stackUnderflow

theorem setFlags_saturate (result : Int) :
    machine.setFlags (Value.saturate result) = machine.flag result := by
  simp only [setFlags, flag, Value.saturate_beq_zero, Value.saturate_lt_zero]

theorem cell_of_top? {machine : Machine} {word : Word} (h : machine.top? = .ok word) :
    ∃ address : Fin 256, (address : Nat) = machine.sp ∧ machine.cell address = word := by
  rw [top?] at h
  split at h
  · next found hfound =>
    cases h
    obtain ⟨hlt, hcell⟩ := Vector.getElem?_eq_some_iff.1 hfound
    exact ⟨⟨machine.sp, hlt⟩, rfl, hcell⟩
  · cases h

theorem top?_eq_error_iff {machine : Machine} {kind : FaultKind} :
    machine.top? = .error kind ↔ kind = .stackUnderflow ∧ 256 ≤ machine.sp := by
  rw [top?, ← Vector.getElem?_eq_none_iff]
  cases machine.memory.cells[machine.sp]? <;> simp [eq_comm]

theorem top?_eq_cell {machine : Machine} {address : Fin 256}
    (h : (address : Nat) = machine.sp) :
    machine.top? = .ok (machine.cell address) := by
  have hcell : machine.memory.cells[machine.sp]? = some (machine.cell address) := by
    rw [← h]
    exact Vector.getElem?_eq_getElem address.isLt
  rw [top?, hcell]

end Machine

/-! ## Changes -/

/-- What an instruction changes when it succeeds. -/
inductive Change
  /-- A word is copied to a location. -/
  | move (location : Location) (word : Word)
  /-- The word nearest to a result is stored at a location, and the flags are set. -/
  | store (location : Location) (result : Int)
  /-- The flags are set. -/
  | compare (result : Int)
  /-- A word is pushed. -/
  | push (word : Word)
  /-- The top is copied to a location and dropped. -/
  | pop (location : Location) (word : Word)
  /-- A jump is taken. -/
  | jump (target : Nat)
  /-- A jump is not taken. -/
  | skip
  /-- The return address is pushed before a jump. -/
  | call (target : Nat) (returnAddress : Word)
  /-- The top is dropped and jumped to. -/
  | ret (target : Nat)
  /-- A value is written to the output. -/
  | output (value : Value)
  /-- The machine halts. -/
  | halt
  deriving DecidableEq

namespace Change

variable (machine : Machine)

/-- Where execution goes on after a change. -/
def flow : Change → Flow
  | .jump target | .call target _ | .ret target => .jump target
  | .halt => .halt
  | .move .. | .store .. | .compare _ | .push _ | .pop .. | .skip | .output _ => .next

/-- The state after a change, with the program counter left alone. -/
def apply : Change → Machine
  | .move location word => machine.setAt location word
  | .store location result => (machine.setAt location (Word.saturate result)).flag result
  | .compare result => machine.flag result
  | .push word | .call _ word => machine.push word
  | .pop location word => (machine.setAt location word).drop
  | .ret _ => machine.drop
  | .output value => { machine with output := machine.output.push (toString value.toInt) }
  | .jump _ | .skip | .halt => machine

/-- A word can only be pushed onto a stack that lies in the memory. -/
def Fits : Change → Prop
  | .push _ | .call .. => machine.sp ≤ 256
  | .move .. | .store .. | .compare _ | .pop .. | .jump _ | .skip | .ret _ | .output _ | .halt =>
    True

instance : (change : Change) → Decidable (change.Fits machine)
  | .push _ | .call .. => inferInstanceAs (Decidable (machine.sp ≤ 256))
  | .move .. | .store .. | .compare _ | .pop .. | .jump _ | .skip | .ret _ | .output _ | .halt =>
    inferInstanceAs (Decidable True)

end Change

/-- A change with the message on it. -/
structure Effect where
  change : Change
  text : String
  deriving DecidableEq

/-! ## The effects of instructions -/

namespace Machine

variable (machine : Machine)

/-- The effect of an operation on two operands that stores its result in the first.
    Whether the result can be stored there is asked last. -/
def binary (opcode : Opcode) (destination source : Operand) : Except FaultKind Effect := do
  let x ← machine.read destination.mode
  let y ← machine.read source.mode
  let result ← opcode.exact x.toInt y.toInt
  let location ← machine.locate destination.mode
  return ⟨.store location result,
    s!"{opcode.name} {x.toInt} {y.toInt}: {(Value.saturate result).toInt}"⟩

/-- The effect of an operation on one operand that stores its result there. -/
def unary (opcode : Opcode) (destination : Operand) : Except FaultKind Effect := do
  let x ← machine.read destination.mode
  let result ← opcode.exact x.toInt 0
  let location ← machine.locate destination.mode
  return ⟨.store location result, s!"{opcode.name} {x.toInt}: {(Value.saturate result).toInt}"⟩

/-- Whether a jump is taken. -/
def takes : Opcode → Bool
  | .jz => machine.flags.zero
  | .jnz => !machine.flags.zero
  | .js => machine.flags.sign
  | _ => true

/-- The effect of a jump to the label that an operand names. -/
def branch (labels : LabelTable) (opcode : Opcode) (operand : Operand) :
    Except FaultKind Effect :=
  if machine.takes opcode then
    match labels.get? operand.token with
    | some target => .ok ⟨.jump target, s!"{opcode.name} {operand.token} -> {target}"⟩
    | none => .error .undefinedLabel
  else .ok ⟨.skip, s!"{opcode.name} {operand.token} not taken"⟩

end Machine

/-- The effect of an instruction on a machine, or the fault for which it has none. -/
def Instruction.effect (instruction : Instruction) (labels : LabelTable) (machine : Machine) :
    Except FaultKind Effect :=
  match instruction.opcode, instruction.operands with
  | .mov, [destination, source] => do
    let value ← machine.read source.mode
    let location ← machine.locate destination.mode
    return ⟨.move location (Word.saturate value.toInt),
      s!"MOV {destination.token} <- {value.toInt}"⟩
  | .push, [source] =>
    if machine.sp = 0 then .error .stackOverflow
    else do
      let value ← machine.read source.mode
      return ⟨.push (Word.saturate value.toInt), s!"PUSH {value.toInt} (sp: {machine.sp - 1})"⟩
  | .pop, [destination] => do
    let word ← machine.top?
    let location ← machine.locate destination.mode
    return ⟨.pop location word,
      s!"POP {word.toInt} -> {destination.token} (sp: {machine.sp + 1})"⟩
  | .add, [destination, source] => machine.binary .add destination source
  | .sub, [destination, source] => machine.binary .sub destination source
  | .mol, [destination, source] => machine.binary .mol destination source
  | .div, [destination, source] => machine.binary .div destination source
  | .inc, [destination] => machine.unary .inc destination
  | .dec, [destination] => machine.unary .dec destination
  | .and, [destination, source] => machine.binary .and destination source
  | .or, [destination, source] => machine.binary .or destination source
  | .not, [destination] => machine.unary .not destination
  | .cmp, [left, right] => do
    let x ← machine.read left.mode
    let y ← machine.read right.mode
    let result := x.toInt - y.toInt
    return ⟨.compare result, s!"CMP {x.toInt} {y.toInt}: {(Value.saturate result).toInt}"⟩
  | .jmp, [operand] => machine.branch labels .jmp operand
  | .jz, [operand] => machine.branch labels .jz operand
  | .jnz, [operand] => machine.branch labels .jnz operand
  | .js, [operand] => machine.branch labels .js operand
  | .call, [operand] =>
    if machine.sp = 0 then .error .stackOverflow
    else
      match labels.get? operand.token, Word.ofNat? (machine.pc + 1) with
      | some target, some returnAddress =>
        .ok ⟨.call target returnAddress,
          s!"CALL {operand.token} -> {target} (sp: {machine.sp - 1})"⟩
      | none, _ => .error .undefinedLabel
      | some _, none => .error .executionOutOfBounds
  | .ret, [] => do
    let word ← machine.top?
    if 0 ≤ word.toInt then
      return ⟨.ret word.toInt.toNat, s!"RET -> {word.toInt} (sp: {machine.sp + 1})"⟩
    else throw .executionOutOfBounds
  | .out, [source] => do
    let value ← machine.read source.mode
    return ⟨.output value, s!"OUT {value.toInt}"⟩
  | .hlt, [] => .ok ⟨.halt, "HLT"⟩
  | _, _ => .error .operandCountMismatch

/-! ## Transitions -/

namespace Opcode

/-- The operations that store a result. -/
def stores (opcode : Opcode) : Bool := opcode.computes && opcode != .cmp

/-- The operations that do nothing but jump. -/
def branches : Opcode → Bool
  | .jmp | .jz | .jnz | .js => true
  | _ => false

end Opcode

/-- The changes that an instruction makes to a machine, with the conditions under
    which it makes them. -/
inductive Transition (labels : LabelTable) (machine : Machine) :
    Opcode → List Operand → Change → Prop
  | mov {destination source : Operand} {value : Value} {location : Location} :
      machine.read source.mode = .ok value → machine.locate destination.mode = .ok location →
      Transition labels machine .mov [destination, source]
        (.move location (Word.saturate value.toInt))
  | push {source : Operand} {value : Value} :
      machine.sp ≠ 0 → machine.read source.mode = .ok value →
      Transition labels machine .push [source] (.push (Word.saturate value.toInt))
  | pop {destination : Operand} {word : Word} {location : Location} :
      machine.top? = .ok word → machine.locate destination.mode = .ok location →
      Transition labels machine .pop [destination] (.pop location word)
  | binary {opcode : Opcode} {destination source : Operand} {x y : Value} {result : Int}
      {location : Location} :
      opcode.stores → machine.read destination.mode = .ok x → machine.read source.mode = .ok y →
      opcode.exact x.toInt y.toInt = .ok result → machine.locate destination.mode = .ok location →
      Transition labels machine opcode [destination, source] (.store location result)
  | unary {opcode : Opcode} {destination : Operand} {x : Value} {result : Int}
      {location : Location} :
      opcode.stores → machine.read destination.mode = .ok x →
      opcode.exact x.toInt 0 = .ok result → machine.locate destination.mode = .ok location →
      Transition labels machine opcode [destination] (.store location result)
  | cmp {left right : Operand} {x y : Value} :
      machine.read left.mode = .ok x → machine.read right.mode = .ok y →
      Transition labels machine .cmp [left, right] (.compare (x.toInt - y.toInt))
  | jump {opcode : Opcode} {operand : Operand} {target : Nat} :
      opcode.branches → machine.takes opcode → labels.get? operand.token = some target →
      Transition labels machine opcode [operand] (.jump target)
  | skip {opcode : Opcode} {operand : Operand} :
      opcode.branches → machine.takes opcode = false →
      Transition labels machine opcode [operand] .skip
  | call {operand : Operand} {target : Nat} {returnAddress : Word} :
      machine.sp ≠ 0 → labels.get? operand.token = some target →
      Word.ofNat? (machine.pc + 1) = some returnAddress →
      Transition labels machine .call [operand] (.call target returnAddress)
  | ret {word : Word} :
      machine.top? = .ok word → 0 ≤ word.toInt →
      Transition labels machine .ret [] (.ret word.toInt.toNat)
  | out {source : Operand} {value : Value} :
      machine.read source.mode = .ok value →
      Transition labels machine .out [source] (.output value)
  | hlt : Transition labels machine .hlt [] .halt

section

variable {machine : Machine} {labels : LabelTable} {opcode : Opcode} {effect : Effect}

theorem Machine.transition_of_binary {destination source : Operand} (hstores : opcode.stores)
    (h : machine.binary opcode destination source = .ok effect) :
    Transition labels machine opcode [destination, source] effect.change := by
  simp only [binary, bind_eq_ok_iff, pure_eq_ok_iff] at h
  obtain ⟨x, hx, y, hy, result, hresult, location, hlocation, rfl⟩ := h
  exact .binary hstores hx hy hresult hlocation

theorem Machine.transition_of_unary {destination : Operand} (hstores : opcode.stores)
    (h : machine.unary opcode destination = .ok effect) :
    Transition labels machine opcode [destination] effect.change := by
  simp only [unary, bind_eq_ok_iff, pure_eq_ok_iff] at h
  obtain ⟨x, hx, result, hresult, location, hlocation, rfl⟩ := h
  exact .unary hstores hx hresult hlocation

theorem Machine.transition_of_branch {operand : Operand} (hbranches : opcode.branches)
    (h : machine.branch labels opcode operand = .ok effect) :
    Transition labels machine opcode [operand] effect.change := by
  rw [branch] at h
  split at h
  · next htakes =>
    split at h
    · next target htarget => cases h; exact .jump hbranches htakes htarget
    · cases h
  · next htakes => cases h; exact .skip hbranches (Bool.eq_false_iff.2 htakes)

theorem Instruction.effect_of_length_ne {instruction : Instruction}
    (h : instruction.operands.length ≠ instruction.opcode.arity) :
    instruction.effect labels machine = .error .operandCountMismatch := by
  obtain ⟨opcode, operands, line⟩ := instruction
  -- No operation has more than two operands.
  cases opcode <;> rcases operands with _ | ⟨_, _ | ⟨_, _ | ⟨_, _⟩⟩⟩ <;>
    first | rfl | exact absurd rfl h

/-- A successful effect is by one of the rules. -/
theorem Instruction.transition {instruction : Instruction}
    (h : instruction.effect labels machine = .ok effect) :
    Transition labels machine instruction.opcode instruction.operands effect.change := by
  have harity : instruction.operands.length = instruction.opcode.arity := by
    by_contra hne
    rw [effect_of_length_ne hne] at h
    cases h
  obtain ⟨opcode, operands, line⟩ := instruction
  cases opcode with
  | mov =>
    obtain ⟨destination, source, rfl⟩ := List.length_eq_two.1 harity
    simp only [Instruction.effect, bind_eq_ok_iff, pure_eq_ok_iff] at h
    obtain ⟨value, hvalue, location, hlocation, rfl⟩ := h
    exact .mov hvalue hlocation
  | push =>
    obtain ⟨source, rfl⟩ := List.length_eq_one_iff.1 harity
    simp only [Instruction.effect] at h
    split at h
    · cases h
    · next hsp =>
      simp only [bind_eq_ok_iff, pure_eq_ok_iff] at h
      obtain ⟨value, hvalue, rfl⟩ := h
      exact .push hsp hvalue
  | pop =>
    obtain ⟨destination, rfl⟩ := List.length_eq_one_iff.1 harity
    simp only [Instruction.effect, bind_eq_ok_iff, pure_eq_ok_iff] at h
    obtain ⟨word, hword, location, hlocation, rfl⟩ := h
    exact .pop hword hlocation
  | add | sub | mol | div | and | or =>
    obtain ⟨destination, source, rfl⟩ := List.length_eq_two.1 harity
    exact Machine.transition_of_binary rfl h
  | inc | dec | not =>
    obtain ⟨destination, rfl⟩ := List.length_eq_one_iff.1 harity
    exact Machine.transition_of_unary rfl h
  | cmp =>
    obtain ⟨left, right, rfl⟩ := List.length_eq_two.1 harity
    simp only [Instruction.effect, bind_eq_ok_iff, pure_eq_ok_iff] at h
    obtain ⟨x, hx, y, hy, rfl⟩ := h
    exact .cmp hx hy
  | jmp | jz | jnz | js =>
    obtain ⟨operand, rfl⟩ := List.length_eq_one_iff.1 harity
    exact Machine.transition_of_branch rfl h
  | call =>
    obtain ⟨operand, rfl⟩ := List.length_eq_one_iff.1 harity
    simp only [Instruction.effect] at h
    split at h
    · cases h
    · next hsp =>
      split at h
      · next target returnAddress htarget haddress =>
        cases h
        exact .call hsp htarget haddress
      · cases h
      · cases h
  | ret =>
    obtain rfl := List.length_eq_zero_iff.1 harity
    simp only [Instruction.effect, bind_eq_ok_iff] at h
    obtain ⟨word, hword, h⟩ := h
    split at h
    · next hnonneg =>
      cases h
      exact .ret hword hnonneg
    · cases h
  | out =>
    obtain ⟨source, rfl⟩ := List.length_eq_one_iff.1 harity
    simp only [Instruction.effect, bind_eq_ok_iff, pure_eq_ok_iff] at h
    obtain ⟨value, hvalue, rfl⟩ := h
    exact .out hvalue
  | hlt =>
    obtain rfl := List.length_eq_zero_iff.1 harity
    cases h
    exact .hlt

/-- What is by one of the rules is the change of an effect, if the number of operands is right. -/
theorem Transition.exists_effect {operands : List Operand} {change : Change}
    (h : Transition labels machine opcode operands change)
    (harity : operands.length = opcode.arity) (line : Nat) :
    ∃ effect, Instruction.effect ⟨opcode, operands, line⟩ labels machine = .ok effect ∧
      effect.change = change := by
  cases h with
  | mov hread hlocate | pop hread hlocate =>
    simp only [Instruction.effect, hread, hlocate]
    exact ⟨_, rfl, rfl⟩
  | push hsp hread =>
    simp only [Instruction.effect, if_neg hsp, hread]
    exact ⟨_, rfl, rfl⟩
  | @binary _ destination source x y result location hstores hx hy hresult hlocate =>
    obtain ⟨text, hbinary⟩ : ∃ text,
        machine.binary opcode destination source = .ok ⟨.store location result, text⟩ := by
      simp only [Machine.binary, hx, hy, ok_bind, hresult, hlocate]
      exact ⟨_, rfl⟩
    cases opcode with
    | add | sub | mol | div | and | or => exact ⟨_, hbinary, rfl⟩
    | inc | dec | not => cases harity
    | _ => cases hstores
  | @unary _ destination x result location hstores hx hresult hlocate =>
    obtain ⟨text, hunary⟩ : ∃ text,
        machine.unary opcode destination = .ok ⟨.store location result, text⟩ := by
      simp only [Machine.unary, hx, ok_bind, hresult, hlocate]
      exact ⟨_, rfl⟩
    cases opcode with
    | inc | dec | not => exact ⟨_, hunary, rfl⟩
    | add | sub | mol | div | and | or => cases harity
    | _ => cases hstores
  | cmp hx hy =>
    simp only [Instruction.effect, hx, hy]
    exact ⟨_, rfl, rfl⟩
  | @jump _ operand target hbranches htakes htarget =>
    obtain ⟨text, hbranch⟩ : ∃ text,
        machine.branch labels opcode operand = .ok ⟨.jump target, text⟩ := by
      rw [Machine.branch, if_pos htakes, htarget]
      exact ⟨_, rfl⟩
    cases opcode with
    | jmp | jz | jnz | js => exact ⟨_, hbranch, rfl⟩
    | _ => cases hbranches
  | @skip _ operand hbranches htakes =>
    obtain ⟨text, hbranch⟩ : ∃ text, machine.branch labels opcode operand = .ok ⟨.skip, text⟩ := by
      rw [Machine.branch, if_neg (Bool.eq_false_iff.1 htakes)]
      exact ⟨_, rfl⟩
    cases opcode with
    | jmp | jz | jnz | js => exact ⟨_, hbranch, rfl⟩
    | _ => cases hbranches
  | call hsp htarget haddress =>
    simp only [Instruction.effect, if_neg hsp, htarget, haddress]
    exact ⟨_, rfl, rfl⟩
  | ret htop hnonneg =>
    simp only [Instruction.effect, htop, ok_bind, if_pos hnonneg]
    exact ⟨_, rfl, rfl⟩
  | out hread =>
    simp only [Instruction.effect, hread]
    exact ⟨_, rfl, rfl⟩
  | hlt => exact ⟨_, rfl, rfl⟩

end

end RegisterMachine
