import Mathlib.Data.Nat.Log
import Mathlib.Data.Nat.Bitwise

namespace Smear

/-- The `m` bits from bit `top` down are set, and none above it. -/
def Filled (top m v : Nat) : Prop :=
  v < 2 ^ (top + 1) ∧ ∀ i ≤ top, top - i < m → v.testBit i = true

theorem filled_one {v : Nat} (hv : v ≠ 0) : Filled (Nat.log2 v) 1 v := by
  refine ⟨Nat.lt_log2_self, fun i hi hlt => ?_⟩
  obtain rfl : i = Nat.log2 v := by omega
  exact Nat.testBit_log2 hv

/-- Or-ing a number with itself shifted by the length of its run doubles the run. -/
theorem Filled.double {top m v : Nat} (h : Filled top m v) : Filled top (2 * m) (v ||| v >>> m) := by
  obtain ⟨hlt, hset⟩ := h
  refine ⟨Nat.or_lt_two_pow hlt (Nat.lt_of_le_of_lt (Nat.shiftRight_le v m) hlt), fun i hi hrun => ?_⟩
  rw [Nat.testBit_or, Nat.testBit_shiftRight, Bool.or_eq_true]
  rcases Nat.lt_or_ge (top - i) m with hnear | hfar
  · exact Or.inl (hset i hi hnear)
  · exact Or.inr (hset (m + i) (by omega) (by omega))

theorem Filled.eq {top m v : Nat} (h : Filled top m v) (hm : top < m) : v = 2 ^ (top + 1) - 1 := by
  apply Nat.eq_of_testBit_eq
  intro i
  rw [Nat.testBit_two_pow_sub_one]
  rcases Nat.lt_or_ge i (top + 1) with hi | hi
  · rw [h.2 i (by omega) (by omega), decide_eq_true hi]
  · rw [decide_eq_false (by omega)]
    exact Nat.testBit_lt_two_pow (Nat.lt_of_lt_of_le h.1 (Nat.pow_le_pow_right (by decide) hi))

end Smear
