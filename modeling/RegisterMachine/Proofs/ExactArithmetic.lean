import Mathlib.Data.Int.Bitwise
import Mathlib.Data.Rat.Floor
import RegisterMachine.Fault
import RegisterMachine.Opcode
import RegisterMachine.Value

/-!
# Exact arithmetic

What the operations compute is an integer: a sum, a difference, a product, a
quotient rounded to its floor, or the bits of an integer in two's complement, of
which there are infinitely many (`Opcode.exact`). The operations on values agree
with it up to the bounds of the values: each of them gives the value nearest to the
exact integer.

* `filter_isWord_eq`: a partial operation, restricted to words, tells whether the
  exact result is a word;
* `saturatingAdd_eq`, `saturatingSub_eq`: so do the saturating operations;
* `floorDiv?_eq`: a floored quotient is defined for every divisor but zero;
* `and_eq`, `or_eq`, `not_eq`: the operations on 64 bits are those on infinitely many.

Nothing that is done with a result distinguishes an integer from the nearest value:
neither the word that is stored (`saturate_toInt_saturate`) nor the flags
(`saturate_beq_zero`, `saturate_lt_zero`).
-/

namespace RegisterMachine

namespace Opcode

/-- The operations that compute a result, from one or two operands. They set the
    flags, and all but the comparison store the result. -/
def computes : Opcode → Bool
  | .add | .sub | .mol | .div | .inc | .dec | .and | .or | .not | .cmp => true
  | .mov | .push | .pop | .jmp | .jz | .jnz | .js | .call | .ret | .out | .hlt => false

/-- A result that must be a word. -/
def exactWord (result : Int) : Except FaultKind Int :=
  if -32768 ≤ result ∧ result ≤ 32767 then .ok result else .error .arithmeticOverflow

/-- The exact result of an operation that computes. An operation on one operand
    disregards `y`. -/
def exact : Opcode → Int → Int → Except FaultKind Int
  | .add, x, y => exactWord (x + y)
  | .sub, x, y => exactWord (x - y)
  | .mol, x, y => exactWord (x * y)
  | .div, x, y => if y = 0 then .error .divisionByZero else .ok ⌊(x / y : ℚ)⌋
  | .inc, x, _ => if x + 1 > 32767 then .error .arithmeticOverflow else .ok (x + 1)
  | .dec, x, _ => if x - 1 < -32768 then .error .arithmeticOverflow else .ok (x - 1)
  | .and, x, y => .ok (Int.land x y)
  | .or, x, y => .ok (Int.lor x y)
  | .not, x, _ => .ok (Int.lnot x)
  | .cmp, x, y => .ok (x - y)
  | .mov, x, _ | .push, x, _ | .pop, x, _ | .jmp, x, _ | .jz, x, _ | .jnz, x, _ | .js, x, _
  | .call, x, _ | .ret, x, _ | .out, x, _ | .hlt, x, _ => .ok x

end Opcode

namespace Value

@[simp] theorem saturate_toInt (value : Value) : saturate value.toInt = value := by
  have := value.le_toInt
  have := value.toInt_lt
  rw [← Int64.toInt_inj, toInt_saturate]
  omega

theorem toInt_saturate_of_mem {n : Int} (low : -9223372036854775808 ≤ n)
    (high : n ≤ 9223372036854775807) : (saturate n).toInt = n := by
  rw [toInt_saturate]; omega

theorem saturate_toInt_saturate (n : Int) : Word.saturate (saturate n).toInt = Word.saturate n := by
  ext
  rw [Word.toInt_saturate, Word.toInt_saturate, toInt_saturate]
  omega

theorem saturate_beq_zero (n : Int) : (saturate n == 0) = decide (n = 0) := by
  have : saturate n = 0 ↔ n = 0 := by
    rw [← Int64.toInt_inj, toInt_saturate, Int64.toInt_zero]
    omega
  rw [beq_eq_decide]
  exact decide_eq_decide.2 this

theorem saturate_lt_zero (n : Int) : saturate n < 0 ↔ n < 0 := by
  rw [Int64.lt_iff_toInt_lt, toInt_saturate, Int64.toInt_zero]
  omega

/-! ## Sums, differences and products -/

theorem filter_isWord_eq {result : Option Value} {exact : Int}
    (h : ∀ c, result = some c ↔ exact = c.toInt) :
    result.filter isWord =
      if -32768 ≤ exact ∧ exact ≤ 32767 then some (saturate exact) else none := by
  split
  · next hrange =>
    have hsat : exact = (saturate exact).toInt := by rw [toInt_saturate]; omega
    rw [(h _).2 hsat, Option.filter_some_pos]
    simp only [isWord, Word.least, Word.greatest, ← hsat]
    simp [hrange]
  · next hrange =>
    cases result with
    | none => rfl
    | some c =>
      have hc := (h c).1 rfl
      rw [Option.filter_some_neg]
      simp only [isWord, Word.least, Word.greatest, ← hc]
      simpa using hrange

/-- The value that stands in for a result that is none is the nearest one, if it is the bound
    on the right side. -/
theorem getD_eq_saturate {result : Option Value} {exact : Int} {bound : Value}
    (h : ∀ c, result = some c ↔ exact = c.toInt)
    (hbound : exact < -9223372036854775808 ∨ 9223372036854775807 < exact →
      bound = saturate exact) :
    result.getD bound = saturate exact := by
  cases result with
  | some c => rw [(h c).1 rfl, saturate_toInt, Option.getD_some]
  | none =>
    refine hbound ?_
    by_contra hrange
    have hsat : exact = (saturate exact).toInt := by rw [toInt_saturate]; omega
    cases (h _).2 hsat

theorem saturatingAdd_eq (a b : Value) : saturatingAdd a b = saturate (a.toInt + b.toInt) := by
  refine getD_eq_saturate (fun _ => add?_eq_some_iff) fun hrange => ?_
  have ha := a.le_toInt
  have ha' := a.toInt_lt
  -- A sum overflows on the side of the sign of `b`, a difference on the other one.
  rw [← Int64.toInt_inj, toInt_saturate]
  split
  · next hb =>
    rw [Int64.lt_iff_toInt_lt, Int64.toInt_zero] at hb
    rw [Int64.toInt_minValue]
    omega
  · next hb =>
    rw [Int64.lt_iff_toInt_lt, Int64.toInt_zero] at hb
    rw [Int64.toInt_maxValue]
    omega

theorem saturatingSub_eq (a b : Value) : saturatingSub a b = saturate (a.toInt - b.toInt) := by
  refine getD_eq_saturate (fun _ => sub?_eq_some_iff) fun hrange => ?_
  have ha := a.le_toInt
  have ha' := a.toInt_lt
  rw [← Int64.toInt_inj, toInt_saturate]
  split
  · next hb =>
    rw [Int64.lt_iff_toInt_lt, Int64.toInt_zero] at hb
    rw [Int64.toInt_maxValue]
    omega
  · next hb =>
    rw [Int64.lt_iff_toInt_lt, Int64.toInt_zero] at hb
    rw [Int64.toInt_minValue]
    omega

/-! ## Quotients -/

theorem floor_div_eq_fdiv (x y : Int) : ⌊(x / y : ℚ)⌋ = x.fdiv y := by
  -- The floor is that of the Euclidean quotient for a divisor that is not negative. With a
  -- negative one, both signs are changed.
  obtain ⟨n, rfl | rfl⟩ := y.eq_nat_or_neg
  · rw [Int.cast_natCast, Rat.floor_intCast_div_natCast,
      Int.fdiv_eq_ediv_of_nonneg x (Int.natCast_nonneg n)]
  · rw [← Int.neg_fdiv_neg, neg_neg, Int.fdiv_eq_ediv_of_nonneg (-x) (Int.natCast_nonneg n),
      ← Rat.floor_intCast_div_natCast]
    congr 1
    push_cast
    rw [div_neg, neg_div]

/-- Rounded toward negative infinity, a quotient is the one rounded toward zero, or one less
    if there is a remainder and the signs differ. -/
theorem fdiv_eq_tdiv_sub {x y : Int} (hy : y ≠ 0) :
    x.fdiv y = if x.tmod y ≠ 0 ∧ (x < 0 ↔ ¬ y < 0) then x.tdiv y - 1 else x.tdiv y := by
  rw [Int.fdiv_eq_tdiv]
  simp only [Int.dvd_iff_tmod_eq_zero]
  rcases Int.lt_or_gt_of_ne hy with h | h
  · rw [Int.sign_eq_neg_one_of_neg h]
    split_ifs <;> omega
  · rw [Int.sign_eq_one_of_pos h]
    split_ifs <;> omega

/-- A quotient with a remainder is at most half of the dividend. -/
theorem natAbs_tdiv_le {x y : Int} (hr : x.tmod y ≠ 0) (hy : y ≠ 0) :
    (x.tdiv y).natAbs ≤ x.natAbs / 2 := by
  rw [Int.natAbs_tdiv]
  refine Nat.div_le_div_left ?_ (by decide)
  by_contra hlt
  obtain rfl | rfl : y = 1 ∨ y = -1 := by omega
  · exact hr (Int.tmod_one x)
  · exact hr (by simp)

theorem floorDiv?_eq {a b : Value} (hb : b ≠ 0) :
    floorDiv? a b = some (saturate ⌊(a.toInt / b.toInt : ℚ)⌋) := by
  have hb' : b.toInt ≠ 0 := fun h => hb (Int64.toInt_inj.1 h)
  rw [floor_div_eq_fdiv]
  -- The one quotient of values that is not a value itself.
  by_cases hmin : a = Int64.minValue ∧ b = -1
  · obtain ⟨rfl, rfl⟩ := hmin
    decide
  · have hdiv : divisible a b = true := by simpa [divisible, hb] using not_and_or.1 hmin
    have hq : (a / b).toInt = a.toInt.tdiv b.toInt := by
      by_cases ha : a = Int64.minValue
      · exact Int64.toInt_div_of_ne_right a b fun h => hmin ⟨ha, h⟩
      · exact Int64.toInt_div_of_ne_left a b ha
    have hr : a % b = 0 ↔ a.toInt.tmod b.toInt = 0 := by
      rw [← Int64.toInt_mod, ← Int64.toInt_zero, Int64.toInt_inj]
    have hcond : (a % b != 0 && (decide (a < 0) != decide (b < 0))) = true ↔
        a.toInt.tmod b.toInt ≠ 0 ∧ (a.toInt < 0 ↔ ¬ b.toInt < 0) := by
      rw [Bool.and_eq_true, bne_iff_ne, ne_eq, hr, bne_iff_ne, ne_eq, decide_eq_decide,
        Int64.lt_iff_toInt_lt, Int64.lt_iff_toInt_lt, Int64.toInt_zero]
      tauto
    simp only [floorDiv?, quotient?, remainder?, hdiv, if_true, Option.bind_eq_bind,
      Option.bind_some]
    rw [fdiv_eq_tdiv_sub hb', ← hq]
    split
    · next h =>
      -- Halved at least, the quotient is far enough from the least value to subtract one.
      have hle := natAbs_tdiv_le (hcond.1 h).1 hb'
      have ha := a.le_toInt
      have ha' := a.toInt_lt
      rw [if_pos (hcond.1 h), sub?_eq_some_iff, Int64.toInt_one,
        toInt_saturate_of_mem (by omega) (by omega)]
    · next h => rw [if_neg fun h' => h (hcond.2 h'), saturate_toInt]

/-! ## Bits -/

theorem toInt_of_msb {bits : BitVec 64} (h : bits.msb = true) :
    bits.toInt = Int.negSucc (~~~bits).toNat := by
  rw [BitVec.toInt_eq_msb_cond, if_pos h, BitVec.toNat_not]
  have := bits.isLt
  omega

theorem toInt_of_not_msb {bits : BitVec 64} (h : bits.msb = false) : bits.toInt = bits.toNat := by
  rw [BitVec.toInt_eq_msb_cond, if_neg (by simp [h])]

theorem toInt_not (bits : BitVec 64) : (~~~bits).toInt = Int.lnot bits.toInt := by
  cases h : bits.msb with
  | true =>
    rw [toInt_of_msb h, toInt_of_not_msb (by simp [h])]
    rfl
  | false =>
    rw [toInt_of_msb (by simp [h]), toInt_of_not_msb h, BitVec.not_not]
    rfl

theorem toNat_and_not (a b : BitVec 64) : (a &&& b).toNat = Nat.ldiff a.toNat (~~~b).toNat := by
  apply Nat.eq_of_testBit_eq
  intro i
  rw [Nat.testBit_ldiff, BitVec.testBit_toNat, BitVec.testBit_toNat, BitVec.testBit_toNat]
  by_cases hi : i < 64
  · simp [hi]
  · simp [BitVec.getLsbD_of_ge _ i (Nat.le_of_not_lt hi)]

/-- The integer of a negative operand is that of the complement of its bits, so the signs of
    the operands decide which operation on naturals the conjunction is. -/
theorem toInt_and (a b : BitVec 64) : (a &&& b).toInt = Int.land a.toInt b.toInt := by
  cases ha : a.msb <;> cases hb : b.msb
  · rw [toInt_of_not_msb ha, toInt_of_not_msb hb, toInt_of_not_msb (by simp [ha]),
      BitVec.toNat_and]
    rfl
  · rw [toInt_of_not_msb ha, toInt_of_msb hb, toInt_of_not_msb (by simp [ha]), toNat_and_not]
    rfl
  · rw [toInt_of_msb ha, toInt_of_not_msb hb, toInt_of_not_msb (by simp [hb]), BitVec.and_comm,
      toNat_and_not]
    rfl
  · rw [toInt_of_msb ha, toInt_of_msb hb, toInt_of_msb (by simp [ha, hb]), BitVec.not_and,
      BitVec.toNat_or]
    rfl

theorem lor_eq_lnot_land (x y : Int) :
    Int.lor x y = Int.lnot (Int.land (Int.lnot x) (Int.lnot y)) := by
  cases x <;> cases y <;> rfl

theorem toInt_or (a b : BitVec 64) : (a ||| b).toInt = Int.lor a.toInt b.toInt := by
  rw [lor_eq_lnot_land, ← toInt_not, ← toInt_not, ← toInt_and, ← toInt_not, BitVec.not_and,
    BitVec.not_not, BitVec.not_not]

theorem and_eq (a b : Value) : a &&& b = saturate (Int.land a.toInt b.toInt) := by
  have h : (a &&& b).toInt = Int.land a.toInt b.toInt := toInt_and a.toBitVec b.toBitVec
  rw [← h, saturate_toInt]

theorem or_eq (a b : Value) : a ||| b = saturate (Int.lor a.toInt b.toInt) := by
  have h : (a ||| b).toInt = Int.lor a.toInt b.toInt := toInt_or a.toBitVec b.toBitVec
  rw [← h, saturate_toInt]

theorem not_eq (a : Value) : ~~~a = saturate (Int.lnot a.toInt) := by
  have h : (~~~a).toInt = Int.lnot a.toInt := toInt_not a.toBitVec
  rw [← h, saturate_toInt]

end Value

end RegisterMachine
