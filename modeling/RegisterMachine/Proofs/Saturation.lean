import RegisterMachine.Proofs.Footprint

/-!
# Saturation

Whatever is stored is saturated to a word, but it hardly ever shows: what an instruction
stores is a word already, but for a few cases (`Saturates`). An immediate operand may be
too large to be moved or pushed; the least word has no quotient by minus one; and an
operation on bits may keep more of a wide immediate operand than a word can hold. There the
nearest word is stored (`stored_eq_exact`).

The reason is that a destination holds a word before the instruction, and few operations
lead out of the words from there:

* `isWord_fdiv`: a floored quotient of a word is a word, but for that one;
* `isWord_land`, `isWord_lor`, `isWord_lnot`: so are the bits of words;
* `isWord_of_exact`: so is the exact result of an operation, with these exceptions.
-/

namespace RegisterMachine

/-- The integers that are words. -/
def IsWord (n : Int) : Prop := -32768 ≤ n ∧ n ≤ 32767

instance (n : Int) : Decidable (IsWord n) := inferInstanceAs (Decidable (_ ∧ _))

theorem Word.isWord (word : Word) : IsWord word.toInt := ⟨word.least_le, word.le_greatest⟩

theorem Word.toInt_saturate_eq_iff {n : Int} : (saturate n).toInt = n ↔ IsWord n := by
  rw [toInt_saturate, IsWord]
  omega

/-- The operations that put a word somewhere. -/
def Opcode.puts (opcode : Opcode) : Bool := opcode.hasDestination || opcode.pushes

theorem Opcode.puts_of_branches {opcode : Opcode} (h : opcode.branches) :
    opcode.puts = false := by
  cases opcode with
  | jmp | jz | jnz | js => rfl
  | _ => cases h

/-! ## Exact results -/

theorem isWord_ofNat_iff {n : Nat} : IsWord (Int.ofNat n) ↔ n < 2 ^ 15 := by
  rw [IsWord, Int.ofNat_eq_natCast]
  omega

theorem isWord_negSucc_iff {n : Nat} : IsWord (Int.negSucc n) ↔ n < 2 ^ 15 := by
  rw [IsWord]
  omega

theorem isWord_lnot {x : Int} (hx : IsWord x) : IsWord (Int.lnot x) := by
  cases x with
  | ofNat n => exact isWord_negSucc_iff.2 (isWord_ofNat_iff.1 hx)
  | negSucc n => exact isWord_ofNat_iff.2 (isWord_negSucc_iff.1 hx)

/-- Beyond the bits of a word there are only those of the sign. -/
theorem isWord_land {x y : Int} (hx : IsWord x) (hy : IsWord y) : IsWord (Int.land x y) := by
  cases x with
  | ofNat m =>
    have hm := isWord_ofNat_iff.1 hx
    cases y with
    | ofNat n => exact isWord_ofNat_iff.2 (Nat.and_le_left.trans_lt hm)
    | negSucc n =>
      exact isWord_ofNat_iff.2 (Nat.bitwise_lt_two_pow hm (isWord_negSucc_iff.1 hy))
  | negSucc m =>
    have hm := isWord_negSucc_iff.1 hx
    cases y with
    | ofNat n => exact isWord_ofNat_iff.2 (Nat.bitwise_lt_two_pow (isWord_ofNat_iff.1 hy) hm)
    | negSucc n => exact isWord_negSucc_iff.2 (Nat.or_lt_two_pow hm (isWord_negSucc_iff.1 hy))

theorem isWord_lor {x y : Int} (hx : IsWord x) (hy : IsWord y) : IsWord (Int.lor x y) := by
  rw [Value.lor_eq_lnot_land]
  exact isWord_lnot (isWord_land (isWord_lnot hx) (isWord_lnot hy))

/-- Rounded down, the quotient of a word is a word, unless it is the one above all words. -/
theorem isWord_fdiv {x y : Int} (hx : IsWord x) (hy : y ≠ 0) (hne : ¬ (x = -32768 ∧ y = -1)) :
    IsWord (x.fdiv y) := by
  obtain ⟨hlow, hhigh⟩ := hx
  by_cases hone : y.natAbs = 1
  · obtain rfl | rfl : y = 1 ∨ y = -1 := by omega
    · rw [Int.fdiv_one]
      exact ⟨hlow, hhigh⟩
    · rw [← Int.neg_fdiv_neg, neg_neg, Int.fdiv_one, IsWord]
      omega
  · -- The quotient is at most half of the dividend, so there is room to round it down.
    have hhalf : (x.tdiv y).natAbs ≤ x.natAbs / 2 := by
      rw [Int.natAbs_tdiv]
      exact Nat.div_le_div_left (by omega) (by decide)
    rw [Value.fdiv_eq_tdiv_sub hy, IsWord]
    split <;> omega

theorem isWord_of_exact {opcode : Opcode} {x y result : Int} (hstores : opcode.stores)
    (hx : IsWord x) (h : opcode.exact x y = .ok result) :
    IsWord result ∨ (opcode = .div ∧ x = -32768 ∧ y = -1) ∨
      ((opcode = .and ∨ opcode = .or) ∧ ¬ IsWord y) := by
  cases opcode with
  | add | sub | mol =>
    simp only [Opcode.exact, Opcode.exactWord] at h
    split at h
    · next hword =>
      cases h
      exact .inl hword
    · cases h
  | div =>
    simp only [Opcode.exact] at h
    split at h
    · cases h
    · next hy =>
      cases h
      by_cases hne : x = -32768 ∧ y = -1
      · exact .inr (.inl ⟨rfl, hne⟩)
      · rw [Value.floor_div_eq_fdiv]
        exact .inl (isWord_fdiv hx hy hne)
  | inc | dec =>
    simp only [Opcode.exact] at h
    split at h
    · cases h
    · cases h
      rw [IsWord] at hx ⊢
      omega
  | and =>
    cases h
    by_cases hy : IsWord y
    · exact .inl (isWord_land hx hy)
    · exact .inr (.inr ⟨.inl rfl, hy⟩)
  | or =>
    cases h
    by_cases hy : IsWord y
    · exact .inl (isWord_lor hx hy)
    · exact .inr (.inr ⟨.inr rfl, hy⟩)
  | not =>
    cases h
    exact .inl (isWord_lnot hx)
  | _ => cases hstores

namespace Machine

/-- The exact integer for which an instruction stores a word: the value that it moves, the
    address behind it, or the result that it computes. -/
def exactStored (machine : Machine) (instruction : Instruction) : Except FaultKind Int :=
  match instruction.opcode, instruction.operands with
  | .mov, [_, source] | .push, [source] => machine.readInt source.mode
  | .pop, _ => machine.top?.map (·.toInt)
  | .call, _ => .ok (machine.pc + 1)
  | _, _ => machine.exactResult instruction

/-- The instructions that store another word than the exact integer, which is none. -/
inductive Saturates (machine : Machine) : Instruction → Prop
  | mov {destination source : Operand} {value : Value} {line : Nat} :
      source.mode = .immediate value → ¬ IsWord value.toInt →
      Saturates machine ⟨.mov, [destination, source], line⟩
  | push {source : Operand} {value : Value} {line : Nat} :
      source.mode = .immediate value → ¬ IsWord value.toInt →
      Saturates machine ⟨.push, [source], line⟩
  | div {destination source : Operand} {line : Nat} :
      machine.readInt destination.mode = .ok (-32768) → machine.readInt source.mode = .ok (-1) →
      Saturates machine ⟨.div, [destination, source], line⟩
  | bitwise {opcode : Opcode} {destination source : Operand} {value : Value} {result : Int}
      {line : Nat} :
      opcode = .and ∨ opcode = .or → source.mode = .immediate value → ¬ IsWord value.toInt →
      machine.exactResult ⟨opcode, [destination, source], line⟩ = .ok result → ¬ IsWord result →
      Saturates machine ⟨opcode, [destination, source], line⟩

variable {machine : Machine} {program : Program} {labels : LabelTable} {instruction : Instruction}
  {change : Change} {value : Int}

/-- Only an immediate operand may be read as something else than a word. -/
theorem isWord_of_readInt {mode : Mode} (h : machine.readInt mode = .ok value) :
    IsWord value ∨ ∃ immediate : Value, mode = .immediate immediate ∧ immediate.toInt = value := by
  have hcell {position : Int} (h : machine.readIntCell position = .ok value) : IsWord value := by
    rw [readIntCell] at h
    split at h
    · next word _ =>
      cases h
      exact word.isWord
    · cases h
  cases mode with
  | register register =>
    cases h
    exact .inl (machine.register register).isWord
  | immediate immediate => exact .inr ⟨immediate, rfl, Except.ok.inj h⟩
  | direct address => exact .inl (hcell h)
  | indirect register => exact .inl (hcell h)
  | symbol => cases h

/-- What can be stored to is read as a word. -/
theorem isWord_of_locate {mode : Mode} {location : Location} {x : Value}
    (hlocate : machine.locate mode = .ok location) (h : machine.read mode = .ok x) :
    IsWord x.toInt := by
  obtain hword | ⟨_, rfl, -⟩ := isWord_of_readInt (readInt_of_read h)
  · exact hword
  · cases hlocate

theorem exactStored_of_stores (h : instruction.opcode.stores) :
    machine.exactStored instruction = machine.exactResult instruction := by
  obtain ⟨opcode, operands, line⟩ := instruction
  cases opcode with
  | add | sub | mol | div | inc | dec | and | or | not => rfl
  | _ => cases h

/-- An instruction that stores a word stores the one nearest to its exact integer. -/
theorem written?_eq_saturate
    (h : Transition labels machine instruction.opcode instruction.operands change)
    (hfits : change.Fits machine) (hputs : instruction.opcode.puts) :
    ∃ location value, change.written? machine = some (location, Word.saturate value) ∧
      machine.exactStored instruction = .ok value := by
  have hresult {result : Int} : change.result? = some result →
      machine.exactResult instruction = .ok result := exactResult_of_result? h
  obtain ⟨opcode, operands, line⟩ := instruction
  cases h with
  | mov hread hlocate => exact ⟨_, _, rfl, readInt_of_read hread⟩
  | push hpos hread =>
    rw [Change.written?, address?_sp_sub_one hpos hfits]
    exact ⟨_, _, rfl, readInt_of_read hread⟩
  | pop htop hlocate =>
    refine ⟨_, _, congrArg (fun word => some (_, word)) (Word.saturate_toInt _).symm, ?_⟩
    rw [exactStored, htop]
    rfl
  | call hpos _ haddress =>
    rw [Change.written?, address?_sp_sub_one hpos hfits]
    refine ⟨_, _, congrArg (fun word => some (_, word)) (Word.saturate_toInt _).symm, ?_⟩
    exact congrArg Except.ok (Word.toInt_of_ofNat? haddress).symm
  | binary hstores | unary hstores =>
    exact ⟨_, _, rfl, (exactStored_of_stores hstores).trans (hresult rfl)⟩
  | jump hbranches | skip hbranches => cases (Opcode.puts_of_branches hbranches).symm.trans hputs
  | cmp | ret | out | hlt => cases hputs

/-- The quotient of the least word by minus one is the integer after the greatest word. -/
theorem eq_of_saturates_div (h : machine.Saturates instruction)
    (hopcode : instruction.opcode = .div)
    (hvalue : machine.exactStored instruction = .ok value) : value = 32768 := by
  cases h with
  | div hx hy =>
    simp only [exactStored, exactResult, hx, hy, ok_bind, Opcode.exact,
      Value.floor_div_eq_fdiv] at hvalue
    exact (Except.ok.inj hvalue).symm.trans (by decide)
  | mov | push => cases hopcode
  | bitwise hbits => rcases hbits with rfl | rfl <;> cases hopcode

/-- Another word than the exact integer is stored if the integer is none. -/
theorem not_isWord_of_saturates (h : machine.Saturates instruction)
    (hvalue : machine.exactStored instruction = .ok value) : ¬ IsWord value := by
  cases h with
  | mov hmode hword | push hmode hword =>
    simp only [exactStored, hmode, readInt, Except.ok.injEq] at hvalue
    exact hvalue ▸ hword
  | div hx hy =>
    rw [eq_of_saturates_div (.div hx hy) rfl hvalue]
    decide
  | bitwise hopcode _ _ hresult hword =>
    rw [exactStored_of_stores (by rcases hopcode with rfl | rfl <;> rfl), hresult] at hvalue
    cases hvalue
    exact hword

/-- Only these instructions have an exact integer that is no word. -/
theorem saturates_of_not_isWord
    (h : Transition labels machine instruction.opcode instruction.operands change)
    (hputs : instruction.opcode.puts) (hvalue : machine.exactStored instruction = .ok value)
    (hword : ¬ IsWord value) : machine.Saturates instruction := by
  have hresult {result : Int} : change.result? = some result →
      machine.exactResult instruction = .ok result := exactResult_of_result? h
  obtain ⟨opcode, operands, line⟩ := instruction
  cases h with
  | mov =>
    obtain hread | ⟨immediate, hmode, rfl⟩ := isWord_of_readInt hvalue
    · exact absurd hread hword
    · exact .mov hmode hword
  | push =>
    obtain hread | ⟨immediate, hmode, rfl⟩ := isWord_of_readInt hvalue
    · exact absurd hread hword
    · exact .push hmode hword
  | pop htop =>
    rw [exactStored, htop] at hvalue
    cases hvalue
    exact absurd (Word.isWord _) hword
  | call _ _ haddress =>
    cases hvalue
    have haddress : IsWord ((machine.pc + 1 : Nat) : Int) :=
      Word.toInt_of_ofNat? haddress ▸ Word.isWord _
    exact absurd haddress hword
  | unary hstores hread hexact hlocate =>
    rw [exactStored_of_stores hstores, hresult rfl] at hvalue
    cases hvalue
    -- The operand that is missing counts as zero, which is harmless.
    obtain hresult | ⟨-, -, hy⟩ | ⟨-, hy⟩ :=
      isWord_of_exact hstores (isWord_of_locate hlocate hread) hexact
    · exact absurd hresult hword
    · cases hy
    · exact absurd (by decide) hy
  | binary hstores hread hread' hexact hlocate =>
    rw [exactStored_of_stores hstores, hresult rfl] at hvalue
    cases hvalue
    obtain hresult | ⟨rfl, hx, hy⟩ | ⟨hopcode, hy⟩ :=
      isWord_of_exact hstores (isWord_of_locate hlocate hread) hexact
    · exact absurd hresult hword
    · exact .div (hx ▸ readInt_of_read hread) (hy ▸ readInt_of_read hread')
    · obtain hread | ⟨immediate, hmode, himmediate⟩ := isWord_of_readInt (readInt_of_read hread')
      · exact absurd hread hy
      · exact .bitwise hopcode hmode (himmediate ▸ hy) (hresult rfl) hword
  | jump hbranches | skip hbranches => cases (Opcode.puts_of_branches hbranches).symm.trans hputs
  | cmp | ret | out | hlt => cases hputs

/-- An operation with neither an immediate operand nor a quotient stores its exact integer. -/
theorem not_saturates_of_mem
    (h : instruction.opcode ∈ [.add, .sub, .mol, .inc, .dec, .not, .pop, .call]) :
    ¬ machine.Saturates instruction := by
  intro hsaturates
  cases hsaturates with
  | mov | push | div => exact absurd h (by simp)
  | bitwise hopcode => rcases hopcode with rfl | rfl <;> exact absurd h (by simp)

/-- So do the other operations that compute, on two words, but for one quotient. -/
theorem not_saturates_of_isWord {left right : Operand} {x y : Int}
    (hopcode : instruction.opcode ∈ [.and, .or, .div])
    (hoperands : instruction.operands = [left, right])
    (hx : machine.readInt left.mode = .ok x) (hy : machine.readInt right.mode = .ok y)
    (hword : IsWord y) (hne : ¬ (instruction.opcode = .div ∧ x = -32768 ∧ y = -1)) :
    ¬ machine.Saturates instruction := by
  intro hsaturates
  cases hsaturates with
  | mov | push => exact absurd hopcode (by simp)
  | div hx' hy' =>
    cases hoperands
    exact hne ⟨rfl, Except.ok.inj (hx.symm.trans hx'), Except.ok.inj (hy.symm.trans hy')⟩
  | bitwise _ hmode himmediate =>
    cases hoperands
    rw [hmode] at hy
    exact himmediate (Except.ok.inj hy ▸ hword)

/-- An instruction that is done and stores a word stores the one nearest to its exact integer.
    The two differ only where an immediate operand that is no word is moved, pushed, or
    combined with a word bit by bit so that no word results, and in the quotient of the least
    word by minus one, in whose place the greatest word is stored. -/
theorem stored_eq_exact (program : Program) (machine : Machine) (instruction : Instruction)
    (hhalted : machine.halted = false) (hcurrent : machine.current? program = some instruction)
    (hputs : instruction.opcode.puts = true) (hdone : (machine.step program).outcome = .done) :
    ∃ location word value, machine.footprint? instruction = some location ∧
      (machine.step program).machine.wordAt location = word ∧
      machine.exactStored instruction = .ok value ∧
      (word.toInt = value ↔ ¬ machine.Saturates instruction) ∧
      (machine.Saturates instruction →
        value < -32768 ∧ word.toInt = -32768 ∨ 32767 < value ∧ word.toInt = 32767) ∧
      (instruction.opcode = .div → machine.Saturates instruction → word.toInt = 32767) ∧
      (instruction.opcode ∈ [.add, .sub, .mol, .inc, .dec, .not, .pop, .call] →
        word.toInt = value) ∧
      ∀ left right x y, instruction.opcode ∈ [.and, .or, .div] →
        instruction.operands = [left, right] → machine.readInt left.mode = .ok x →
        machine.readInt right.mode = .ok y → IsWord x → IsWord y →
        ¬ (instruction.opcode = .div ∧ x = -32768 ∧ y = -1) → word.toInt = value := by
  obtain ⟨found, change, hfound, htransition, hfits, hnext⟩ := step_transition hhalted hdone
  obtain rfl := Option.some.inj (hcurrent.symm.trans hfound)
  obtain ⟨location, value, hwritten, hvalue⟩ := written?_eq_saturate htransition hfits hputs
  have hexact : (Word.saturate value).toInt = value ↔ ¬ machine.Saturates instruction := by
    rw [Word.toInt_saturate_eq_iff]
    exact ⟨fun hword hsaturates => not_isWord_of_saturates hsaturates hvalue hword,
      fun hnot => by_contra fun hword =>
        hnot (saturates_of_not_isWord htransition hputs hvalue hword)⟩
  refine ⟨location, Word.saturate value, value, ?_, ?_, hvalue, hexact, fun hsaturates => ?_,
    fun hdiv hsaturates => ?_, fun hopcode => hexact.2 (not_saturates_of_mem hopcode),
    fun left right x y hopcode hoperands hx hy _ hy' hne =>
      hexact.2 (not_saturates_of_isWord hopcode hoperands hx hy hy' hne)⟩
  · rw [footprint?_eq htransition, hwritten, Option.map_some]
  · rw [hnext, wordAt_next_of_written? htransition hfits hwritten]
  · have hword := not_isWord_of_saturates hsaturates hvalue
    rw [IsWord] at hword
    rw [Word.toInt_saturate]
    omega
  · rw [Word.toInt_saturate, eq_of_saturates_div hsaturates hdiv hvalue]
    rfl

/-- A program that divides the least word by minus one. -/
def divideLeast : Program where
  instructions := #[⟨.div, [.ofText "R0".toList, .ofText "-1".toList], 1⟩]
  labels := ∅

/-- The greatest word stands for the quotient, which is one more. -/
theorem stored_eq_exact_divideLeast :
    let machine : Machine := initial.setRegister ⟨0⟩ (Word.saturate (-32768))
    ∃ location word value, machine.footprint?
        ⟨.div, [⟨"R0", .register ⟨0⟩⟩, ⟨"-1", .immediate (-1)⟩], 1⟩ = some location ∧
      (machine.step divideLeast).machine.wordAt location = word ∧
      word.toInt = 32767 ∧ word.toInt ≠ value := by
  intro machine
  have hsaturates : machine.Saturates
      ⟨.div, [⟨"R0", .register ⟨0⟩⟩, ⟨"-1", .immediate (-1)⟩], 1⟩ := .div rfl rfl
  obtain ⟨location, word, value, hlocation, hword, -, hexact, -, hdiv, -⟩ :=
    stored_eq_exact divideLeast machine _ rfl rfl rfl (by decide +kernel)
  exact ⟨location, word, value, hlocation, hword, hdiv rfl hsaturates,
    fun heq => hexact.1 heq hsaturates⟩

end Machine

end RegisterMachine
