import Qanat.CidrOrder
import Mathlib.Data.Nat.Bitwise

namespace Qanat

theorem bigEndian_append_singleton (l : List UInt8) (x : UInt8) : bigEndian (l ++ [x]) = bigEndian l * 256 + x.toNat := by
  induction l with
  | nil => simp [bigEndian]
  | cons y l ih =>
    rw [List.cons_append, bigEndian, bigEndian, ih, List.length_append, List.length_singleton]
    ring

/-- The bits of a number are those of the bytes that spell it. -/
theorem testBit_bigEndian (l : List UInt8) (j : Nat) :
    (bigEndian l).testBit j = (l.reverse.getD (j / 8) 0).toNat.testBit (j % 8) := by
  induction l with
  | nil => simp [bigEndian]
  | cons x xs ih =>
    have hpow : 256 ^ xs.length = 2 ^ (8 * xs.length) := by
      rw [Nat.pow_mul]
    have hlt : bigEndian xs < 2 ^ (8 * xs.length) := by
      rw [← hpow]
      exact bigEndian_lt xs
    rw [bigEndian, hpow, Nat.mul_comm, Nat.testBit_two_pow_mul_add _ hlt, List.reverse_cons,
      List.getD_eq_getElem?_getD]
    by_cases hj : j < 8 * xs.length
    · rw [if_pos hj, ih, List.getElem?_append_left (by simp; omega), List.getD_eq_getElem?_getD]
    · rw [if_neg hj, List.getElem?_append_right (by simp; omega), List.length_reverse]
      by_cases hlast : j / 8 = xs.length
      · have hmod : j - 8 * xs.length = j % 8 := by omega
        simp [hlast, hmod]
      · have hpast : 1 ≤ j / 8 - xs.length := by omega
        have hbig : x.toNat < 2 ^ (j - 8 * xs.length) :=
          Nat.lt_of_lt_of_le x.toNat_lt (Nat.pow_le_pow_right (by decide) (by omega))
        rw [List.getElem?_eq_none (by simpa using hpast), Nat.testBit_lt_two_pow hbig]
        simp

theorem testBit_eq_of_low {x y k : Nat} : x / 2 ^ k = y / 2 ^ k ↔ ∀ j, k ≤ j → x.testBit j = y.testBit j := by
  constructor
  · intro h j hj
    have hbit := congrArg (·.testBit (j - k)) h
    simp only [Nat.testBit_div_two_pow] at hbit
    rwa [Nat.sub_add_cancel hj] at hbit
  · intro h
    apply Nat.eq_of_testBit_eq
    intro i
    rw [Nat.testBit_div_two_pow, Nat.testBit_div_two_pow]
    exact h _ (by omega)

section Bits

variable (b : Vector UInt8 16)

/-- The number of an IPv6 address. -/
def v6Nat : Nat :=
  bigEndian b.toList

theorem v6Nat_lt : v6Nat b < 2 ^ 128 := by
  have h := bigEndian_lt b.toList
  have hlen : b.toList.length = 16 := by simp
  rw [hlen] at h
  exact h

theorem v6Nat_inj {x y : Vector UInt8 16} (h : v6Nat x = v6Nat y) : x = y := by
  have hinj : ∀ {xs ys : List UInt8}, xs.length = ys.length → bigEndian xs = bigEndian ys → xs = ys := by
    intro xs ys hlen heq
    induction xs generalizing ys with
    | nil => exact (List.length_eq_zero_iff.mp hlen.symm).symm
    | cons a xs ih =>
      cases ys with
      | nil => simp at hlen
      | cons c ys =>
        have hrest : xs.length = ys.length := Nat.succ.inj hlen
        rcases Nat.lt_trichotomy a.toNat c.toNat with hac | hac | hca
        · have := bigEndian_lt_of_head hrest (UInt8.lt_iff_toNat_lt.mpr hac)
          omega
        · obtain rfl := UInt8.toNat_inj.mp hac
          simp only [bigEndian, hrest] at heq
          rw [ih hrest (by omega)]
        · have := bigEndian_lt_of_head hrest.symm (UInt8.lt_iff_toNat_lt.mpr hca)
          omega
  exact Vector.toList_inj.mp (hinj (by simp) h)

theorem testBit_v6Nat {i : Nat} (hi : i < 128) :
    (v6Nat b).testBit (127 - i) = (b.toList.getD (i / 8) 0).toNat.testBit (7 - i % 8) := by
  have hlen : b.toList.length = 16 := by simp
  have hbyte : (127 - i) / 8 = 15 - i / 8 := by omega
  have hbit : (127 - i) % 8 = 7 - i % 8 := by omega
  have hrev : b.toList.reverse.getD (15 - i / 8) 0 = b.toList.getD (i / 8) 0 := by
    rw [List.getD_eq_getElem?_getD, List.getD_eq_getElem?_getD, List.getElem?_reverse (by omega), hlen]
    congr 2
    omega
  unfold v6Nat
  rw [testBit_bigEndian, hbyte, hbit, hrev]

/-- One bit as `prefix_contains` compares it. -/
theorem byteBit_eq_iff (x y : UInt8) {t : Nat} (ht : t < 8) :
    (x &&& (0x80 >>> UInt8.ofNat t) = y &&& (0x80 >>> UInt8.ofNat t)) ↔
      x.toNat.testBit (7 - t) = y.toNat.testBit (7 - t) := by
  have hmask : ((0x80 : UInt8) >>> UInt8.ofNat t).toNat = 2 ^ (7 - t) := by
    have hall : ∀ t < 8, ((0x80 : UInt8) >>> UInt8.ofNat t).toNat = 2 ^ (7 - t) := by decide
    exact hall t ht
  rw [← UInt8.toNat_inj, UInt8.toNat_and, UInt8.toNat_and, hmask, Nat.and_two_pow, Nat.and_two_pow]
  have hpos : 0 < 2 ^ (7 - t) := Nat.pow_pos (by decide)
  cases x.toNat.testBit (7 - t) <;> cases y.toNat.testBit (7 - t)
  all_goals simp [hpos.ne]

theorem bitV6_eq_iff (x y : Vector UInt8 16) {i : Nat} (hi : i < 128) :
    bitV6 x i = bitV6 y i ↔ (v6Nat x).testBit (127 - i) = (v6Nat y).testBit (127 - i) := by
  have hshift : i >>> 3 = i / 8 := Nat.shiftRight_eq_div_pow i 3
  have hand : i &&& 7 = i % 8 := Nat.and_two_pow_sub_one_eq_mod i 3
  unfold bitV6
  rw [hshift, hand, byteBit_eq_iff _ _ (Nat.mod_lt i (by decide)), testBit_v6Nat x hi, testBit_v6Nat y hi]

/-- Two addresses agree in their first bits exactly where the numbers of those bits are the same. -/
theorem allBits_iff (x y : Vector UInt8 16) {bits : Nat} (hbits : bits ≤ 128) :
    ((List.range bits).all fun i => bitV6 x i == bitV6 y i) = true ↔
      v6Nat x / 2 ^ (128 - bits) = v6Nat y / 2 ^ (128 - bits) := by
  rw [testBit_eq_of_low, List.all_eq_true]
  constructor
  · intro h j hj
    by_cases hlt : j < 128
    · have hi := h (127 - j) (List.mem_range.mpr (by omega))
      rw [beq_iff_eq, bitV6_eq_iff x y (by omega), show 127 - (127 - j) = j by omega] at hi
      exact hi
    · have hpow : 2 ^ 128 ≤ 2 ^ j := Nat.pow_le_pow_right (by decide) (by omega)
      have hx := Nat.testBit_lt_two_pow (Nat.lt_of_lt_of_le (v6Nat_lt x) hpow)
      have hy := Nat.testBit_lt_two_pow (Nat.lt_of_lt_of_le (v6Nat_lt y) hpow)
      rw [hx, hy]
  · intro h i hi
    have hi := List.mem_range.mp hi
    rw [beq_iff_eq, bitV6_eq_iff x y (by omega)]
    exact h _ (by omega)

theorem testBit_maskByte (bits i : Nat) (x : UInt8) {t : Nat} (ht : t < 8) :
    (maskByte bits i x).toNat.testBit t = (x.toNat.testBit t && decide (8 * i + (7 - t) < bits)) := by
  unfold maskByte
  split
  next h => simp [show 8 * i + (7 - t) < bits by omega]
  next h =>
    split
    next h' => simp [show ¬ 8 * i + (7 - t) < bits by omega]
    next h' =>
      have hall : ∀ r < 8, ∀ t < 8, ((0xFF : UInt8) <<< UInt8.ofNat r).toNat.testBit t = decide (r ≤ t) := by decide
      rw [UInt8.toNat_and, Nat.testBit_and, hall _ (by omega) t ht]
      congr 1
      simp only [decide_eq_decide]
      omega

/-- `mask_v6` keeps the first bits of the number. -/
theorem v6Nat_maskV6 {bits : Nat} (hbits : bits ≤ 128) :
    v6Nat (maskV6 b bits) = v6Nat b / 2 ^ (128 - bits) * 2 ^ (128 - bits) := by
  apply Nat.eq_of_testBit_eq
  intro j
  rw [Nat.testBit_mul_two_pow, Nat.testBit_div_two_pow]
  by_cases hlt : j < 128
  · have hi : 127 - j < 128 := by omega
    have hj : 127 - (127 - j) = j := by omega
    have hmask := testBit_v6Nat (maskV6 b bits) hi
    have hplain := testBit_v6Nat b hi
    rw [hj] at hmask hplain
    have hget : (maskV6 b bits).toList.getD ((127 - j) / 8) 0 =
        maskByte bits ((127 - j) / 8) (b.toList.getD ((127 - j) / 8) 0) := by
      have hin : (127 - j) / 8 < 16 := by omega
      simp [maskV6, List.getD_eq_getElem?_getD, hin]
    rw [hmask, hget, testBit_maskByte _ _ _ (by omega), ← hplain]
    by_cases hk : 128 - bits ≤ j
    · have : 8 * ((127 - j) / 8) + (7 - (7 - (127 - j) % 8)) < bits := by omega
      simp [hk, this]
    · have : ¬ 8 * ((127 - j) / 8) + (7 - (7 - (127 - j) % 8)) < bits := by omega
      simp [hk, this]
  · have hbig (y : Vector UInt8 16) : (v6Nat y).testBit j = false :=
      Nat.testBit_lt_two_pow (Nat.lt_of_lt_of_le (v6Nat_lt y) (Nat.pow_le_pow_right (by decide) (by omega)))
    rw [hbig]
    by_cases hk : 128 - bits ≤ j
    · simp [hk, hbig]
    · simp [hk]

end Bits

/-- The number a byte string spells, last byte first. -/
def littleEndian : List UInt8 → Nat
  | [] => 0
  | x :: xs => x.toNat + 256 * littleEndian xs

theorem bigEndian_reverse (l : List UInt8) : bigEndian l.reverse = littleEndian l := by
  induction l with
  | nil => rfl
  | cons x xs ih =>
    rw [List.reverse_cons, bigEndian_append_singleton, ih, littleEndian]
    ring

theorem littleEndian_addCarry (l : List UInt8) (idx : Nat) :
    littleEndian (addCarry l idx) = (littleEndian l + idx) % 256 ^ l.length := by
  induction l generalizing idx with
  | nil => simp [littleEndian, addCarry, Nat.mod_one]
  | cons x xs ih =>
    have hpow : 256 ^ (x :: xs).length = 256 * 256 ^ xs.length := by
      rw [List.length_cons, Nat.pow_succ]
      ring
    unfold addCarry
    split
    next h =>
      have hlt : littleEndian (x :: xs) < 256 ^ (x :: xs).length := by
        rw [← bigEndian_reverse, ← List.length_reverse]
        exact bigEndian_lt _
      rw [h, Nat.add_zero, Nat.mod_eq_of_lt hlt]
    next =>
      dsimp only
      rw [littleEndian, littleEndian, ih, hpow, UInt8.toNat_ofNat', Nat.shiftRight_eq_div_pow,
        Nat.shiftRight_eq_div_pow]
      have hsum : x.toNat + 256 * littleEndian xs + idx =
          256 * (littleEndian xs + (idx / 2 ^ 8 + (x.toNat + idx % 256) / 2 ^ 8)) +
            (x.toNat + idx % 256) % 256 := by
        omega
      have hlow : (x.toNat + idx % 256) % 256 < 256 := Nat.mod_lt _ (by decide)
      rw [hsum, Nat.mod_mul, Nat.mul_add_mod, Nat.mod_mod, Nat.mul_add_div (by decide), Nat.div_eq_of_lt hlow,
        Nat.add_zero]

theorem v6Nat_addV6 (b : Vector UInt8 16) (idx : Nat) : v6Nat (addV6 b idx) = (v6Nat b + idx) % 2 ^ 128 := by
  have hlist : (addV6 b idx).toList = (addCarry b.toList.reverse idx).reverse := by simp [addV6]
  unfold v6Nat
  rw [hlist, bigEndian_reverse, littleEndian_addCarry, ← bigEndian_reverse, List.reverse_reverse]
  simp

end Qanat
