import RegisterMachine.Word

/-!
# Values

The operands of an instruction are read as *values*, signed 64-bit integers: a
word widens to a value, and an immediate operand may be any value. The
operations on values are of two kinds.

* *Partial* ones answer `none` when the exact result is not a value: `add?`,
  `sub?`, `mul?`, and `quotient?` and `remainder?`, which round toward zero and
  are also undefined at the divisor zero.
* *Saturating* ones replace such a result by the bound on its side:
  `saturatingAdd`, `saturatingSub`.

`floorDiv?` rounds a quotient toward negative infinity. The one quotient above
the range of values is replaced by the greatest value; it is partial only as far
as the operations it is composed of are.

* `add?_eq_some_iff`, `sub?_eq_some_iff`, `mul?_eq_some_iff`: the partial
  operations are those on integers, where the result is a value;
* `toInt_saturate`: saturation clamps an integer to the range of values;
* `Word.toInt_toValue`: a word widens to the same number.
-/

namespace RegisterMachine

/-- A signed 64-bit integer. -/
abbrev Value := Int64

namespace Value

/-- The value nearest to an integer. -/
def saturate (n : Int) : Value := Int64.ofIntClamp n

/-- The sum, if it is a value. -/
def add? (a b : Value) : Option Value :=
  if BitVec.saddOverflow a.toBitVec b.toBitVec then none else some (a + b)

/-- The difference, if it is a value. -/
def sub? (a b : Value) : Option Value :=
  if BitVec.ssubOverflow a.toBitVec b.toBitVec then none else some (a - b)

/-- The product, if it is a value. -/
def mul? (a b : Value) : Option Value :=
  if BitVec.smulOverflow a.toBitVec b.toBitVec then none else some (a * b)

/-- The sum, or the bound of the values that it exceeds. The second summand
    tells which one that is. -/
def saturatingAdd (a b : Value) : Value :=
  (add? a b).getD (if b < 0 then Int64.minValue else Int64.maxValue)

/-- The difference, or the bound of the values that it exceeds. -/
def saturatingSub (a b : Value) : Value :=
  (sub? a b).getD (if b < 0 then Int64.maxValue else Int64.minValue)

/-- Division is undefined by zero, and for the one quotient that is no value. -/
def divisible (a b : Value) : Bool :=
  b != 0 && !(a == Int64.minValue && b == -1)

/-- The quotient rounded toward zero. -/
def quotient? (a b : Value) : Option Value :=
  if divisible a b then some (a / b) else none

/-- The remainder of the division that rounds toward zero. -/
def remainder? (a b : Value) : Option Value :=
  if divisible a b then some (a % b) else none

/-- The quotient rounded toward negative infinity: the quotient rounded toward
    zero is one too large if there is a remainder and the signs differ. -/
def floorDiv? (a b : Value) : Option Value :=
  match quotient? a b with
  | none => some Int64.maxValue
  | some quotient => do
    let remainder ← remainder? a b
    if remainder != 0 && (decide (a < 0) != decide (b < 0)) then sub? quotient 1
    else some quotient

/-- Whether a value is a word. -/
def isWord (value : Value) : Bool :=
  Word.least ≤ value.toInt && value.toInt ≤ Word.greatest

theorem toInt_saturate (n : Int) :
    (saturate n).toInt = max (-9223372036854775808) (min 9223372036854775807 n) := by
  have hmin : Int64.minValue.toInt = -9223372036854775808 := rfl
  have hmax : Int64.maxValue.toInt = 9223372036854775807 := rfl
  unfold saturate Int64.ofIntClamp
  split
  · split
    · rw [Int64.toInt_ofIntLE]
      omega
    · omega
  · omega

/-- An operation that wraps around is exact where it does not overflow, and where it
    does the exact result is no value. -/
theorem wrapped_eq_some_iff {overflow : Bool} {wrapped c : Value} {exact : Int}
    (ho : overflow = false ↔ -9223372036854775808 ≤ exact ∧ exact ≤ 9223372036854775807)
    (hw : wrapped.toInt = exact.bmod 18446744073709551616) :
    (if overflow then none else some wrapped) = some c ↔ exact = c.toInt := by
  cases overflow with
  | true =>
    have hc := c.le_toInt
    have hc' := c.toInt_lt
    simp only [Bool.true_eq_false, false_iff] at ho
    simp only [if_true, reduceCtorEq, false_iff]
    omega
  | false =>
    obtain ⟨low, high⟩ := ho.1 rfl
    rw [Int.bmod_eq_of_le (by omega) (by omega)] at hw
    simp [← hw, Int64.toInt_inj]

theorem add?_eq_some_iff {a b c : Value} : add? a b = some c ↔ a.toInt + b.toInt = c.toInt :=
  wrapped_eq_some_iff (by simp [BitVec.saddOverflow]; omega) (Int64.toInt_add a b)

theorem sub?_eq_some_iff {a b c : Value} : sub? a b = some c ↔ a.toInt - b.toInt = c.toInt :=
  wrapped_eq_some_iff (by simp [BitVec.ssubOverflow]; omega) (Int64.toInt_sub a b)

theorem mul?_eq_some_iff {a b c : Value} : mul? a b = some c ↔ a.toInt * b.toInt = c.toInt :=
  wrapped_eq_some_iff (by simp [BitVec.smulOverflow]; omega) (Int64.toInt_mul a b)

end Value

/-- A word as a value. -/
def Word.toValue (w : Word) : Value := Int64.ofInt w.toInt

@[simp] theorem Word.toInt_toValue (w : Word) : w.toValue.toInt = w.toInt :=
  Int64.toInt_ofInt_of_le (by have := w.least_le; omega) (by have := w.le_greatest; omega)

end RegisterMachine
