/-!
# Upper case

Where the case of letters does not count, text is compared in upper case. Only
the ASCII letters have a case here, as in the core library's `Char.toUpper`.

* `toUpper_toUpper`: upper case is reached in one step.
-/

namespace RegisterMachine.Case

theorem toUpper_of_not_lower {c : Char} (h : ¬('a'.val ≤ c.val ∧ c.val ≤ 'z'.val)) :
    c.toUpper = c := by
  unfold Char.toUpper
  rw [dif_neg h]

theorem toUpper_toUpper_char (c : Char) : c.toUpper.toUpper = c.toUpper := by
  by_cases h : 'a'.val ≤ c.val ∧ c.val ≤ 'z'.val
  · apply toUpper_of_not_lower
    have hval : c.toUpper.val = c.val + ('A'.val - 'a'.val) := by
      unfold Char.toUpper
      rw [dif_pos h]
    rw [hval]
    simp only [UInt32.le_iff_toNat_le, UInt32.toNat_add] at h ⊢
    have ha : 'a'.val.toNat = 97 := rfl
    have hz : 'z'.val.toNat = 122 := rfl
    have hd : ('A'.val - 'a'.val).toNat = 4294967264 := rfl
    omega
  · rw [toUpper_of_not_lower h, toUpper_of_not_lower h]

theorem toUpper_toUpper (text : String) : text.toUpper.toUpper = text.toUpper := by
  apply String.toList_inj.1
  rw [String.toUpper, String.toUpper, String.toList_map, String.toList_map, List.map_map]
  exact List.map_congr_left fun c _ => toUpper_toUpper_char c

end RegisterMachine.Case
