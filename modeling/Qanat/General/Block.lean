import Mathlib.Algebra.Order.Ring.Nat
import Mathlib.Tactic.Ring

namespace Block

/-- Aligned blocks never overlap in part: one that starts inside another of a larger size ends
inside it. -/
theorem end_le {x y big small : Nat} (hx : small ∣ x) (hbig : small ∣ big) (hy : small ∣ y)
    (hlt : y < x + big) : y + small ≤ x + big := by
  obtain ⟨q, rfl⟩ := hy
  obtain ⟨r, hr⟩ := Nat.dvd_add hx hbig
  rw [hr] at hlt ⊢
  have hqr : q < r := Nat.lt_of_mul_lt_mul_left hlt
  calc small * q + small = small * (q + 1) := by ring
    _ ≤ small * r := Nat.mul_le_mul_left small hqr

/-- A number lies in an aligned block exactly where it agrees with the start above the block's size. -/
theorem div_eq_iff {x y k : Nat} (hx : 2 ^ k ∣ x) : x / 2 ^ k = y / 2 ^ k ↔ x ≤ y ∧ y < x + 2 ^ k := by
  obtain ⟨q, rfl⟩ := hx
  have hpos : 0 < 2 ^ k := Nat.pow_pos (by decide)
  rw [Nat.mul_div_cancel_left q hpos, eq_comm, Nat.div_eq_iff hpos, Nat.mul_comm]
  omega

theorem and_highMask {a k w : Nat} (ha : a < 2 ^ w) :
    a &&& ((2 ^ w - 1) <<< k % 2 ^ w) = a / 2 ^ k * 2 ^ k := by
  apply Nat.eq_of_testBit_eq
  intro i
  rw [Nat.testBit_and, Nat.testBit_mod_two_pow, Nat.testBit_shiftLeft, Nat.testBit_two_pow_sub_one,
    Nat.testBit_mul_two_pow, Nat.testBit_div_two_pow]
  by_cases hi : i < w
  · by_cases hk : k ≤ i
    · have hsub : i - k < w := by omega
      simp [hi, hk, hsub]
    · simp [hk]
  · have hfalse : a.testBit i = false :=
      Nat.testBit_lt_two_pow (Nat.lt_of_lt_of_le ha (Nat.pow_le_pow_right (by decide) (by omega)))
    by_cases hk : k ≤ i
    · simp [hi, hfalse, hk]
    · simp [hk]

theorem and_highMask_eq_iff {x y k w : Nat} (hy : y < 2 ^ w) (hx : 2 ^ k ∣ x) :
    y &&& ((2 ^ w - 1) <<< k % 2 ^ w) = x ↔ x ≤ y ∧ y < x + 2 ^ k := by
  rw [and_highMask hy]
  obtain ⟨q, rfl⟩ := hx
  have hpos : 0 < 2 ^ k := Nat.pow_pos (by decide)
  constructor
  · intro h
    rw [← h]
    exact ⟨Nat.div_mul_le_self y _, Nat.lt_div_mul_add hpos⟩
  · rintro ⟨hle, hlt⟩
    have hq : y / 2 ^ k = q := by
      apply Nat.div_eq_of_lt_le
      · rw [Nat.mul_comm]
        exact hle
      · calc y < 2 ^ k * q + 2 ^ k := hlt
          _ = (q + 1) * 2 ^ k := by ring
    rw [hq, Nat.mul_comm]

end Block
