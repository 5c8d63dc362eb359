/-!
# Words

A word is what a register or a memory cell holds: a signed 16-bit integer. A
computed value becomes a word by *saturation*: a value outside of the range of
words is replaced by the bound on its side.

* `toInt_saturate_of_mem`: saturation keeps the values that are words;
* `saturate_toInt`: so it is the identity on words;
* `toInt_saturate_eq_zero`, `toInt_saturate_lt_zero`: saturation keeps zero and
  the sign.
-/

namespace RegisterMachine

/-- A signed 16-bit integer. -/
@[ext]
structure Word where
  toInt : Int
  least_le : -32768 ≤ toInt
  le_greatest : toInt ≤ 32767
  deriving DecidableEq

namespace Word

/-- The least word. -/
def least : Int := -32768

/-- The greatest word. -/
def greatest : Int := 32767

/-- The word nearest to a value. -/
def saturate (value : Int) : Word where
  toInt := max least (min greatest value)
  least_le := by simp only [least, greatest]; omega
  le_greatest := by simp only [least, greatest]; omega

/-- The word zero. -/
def zero : Word := ⟨0, by decide, by decide⟩

/-- The word equal to a natural number, if there is one. -/
def ofNat? (n : Nat) : Option Word :=
  if h : n ≤ 32767 then some ⟨n, by omega, by omega⟩ else none

theorem toInt_saturate (value : Int) : (saturate value).toInt = max (-32768) (min 32767 value) :=
  rfl

@[simp] theorem toInt_zero : zero.toInt = 0 := rfl

theorem toInt_saturate_of_mem {value : Int} (low : -32768 ≤ value) (high : value ≤ 32767) :
    (saturate value).toInt = value := by
  rw [toInt_saturate]; omega

@[simp] theorem saturate_toInt (w : Word) : saturate w.toInt = w :=
  Word.ext (toInt_saturate_of_mem w.least_le w.le_greatest)

theorem toInt_saturate_eq_zero {value : Int} : (saturate value).toInt = 0 ↔ value = 0 := by
  rw [toInt_saturate]; omega

theorem toInt_saturate_lt_zero {value : Int} : (saturate value).toInt < 0 ↔ value < 0 := by
  rw [toInt_saturate]; omega

end Word

end RegisterMachine
