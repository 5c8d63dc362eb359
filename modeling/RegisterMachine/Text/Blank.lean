/-!
# Blank characters

The blank characters are those with the Unicode property `White_Space`. Text is
a list of characters here; `trim` takes the blanks off both of its ends.

* `Blank.ranges`: the ten ranges of code points with the property.
-/

namespace RegisterMachine.Blank

/-- The code points with the property `White_Space`, as inclusive ranges in
    ascending order. -/
def ranges : List (Nat × Nat) :=
  [(0x09, 0x0D), (0x20, 0x20), (0x85, 0x85), (0xA0, 0xA0), (0x1680, 0x1680),
    (0x2000, 0x200A), (0x2028, 0x2029), (0x202F, 0x202F), (0x205F, 0x205F),
    (0x3000, 0x3000)]

/-- A character is blank if its code point lies in one of the ranges. -/
def isBlank (c : Char) : Bool :=
  ranges.any fun (low, high) => low ≤ c.toNat && c.toNat ≤ high

/-- The text without the blanks at its ends. -/
def trim (text : List Char) : List Char :=
  ((text.dropWhile isBlank).reverse.dropWhile isBlank).reverse

end RegisterMachine.Blank
