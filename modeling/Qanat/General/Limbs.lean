import Mathlib.Algebra.Order.Ring.Nat
import Mathlib.Data.List.Basic
import Mathlib.Data.Nat.Bitwise
import Mathlib.Tactic.Ring

namespace Limbs

section Checked

/-- A value that is stored in `w` bits; a value that does not fit is an error. -/
def fit (w v : Nat) : Option Nat :=
  if v < 2 ^ w then some v else none

/-- A difference; one below zero is an error. -/
def less (a b : Nat) : Option Nat :=
  if b ≤ a then some (a - b) else none

theorem fit_of_lt {w v : Nat} (h : v < 2 ^ w) : fit w v = some v :=
  if_pos h

theorem less_of_le {a b : Nat} (h : b ≤ a) : less a b = some (a - b) :=
  if_pos h

/-- A computation without an error, and what holds of its result. -/
def Returns {α : Type} (o : Option α) (Q : α → Prop) : Prop :=
  ∃ r, o = some r ∧ Q r

variable {α β : Type} {Q Q' : α → Prop}

theorem Returns.done {r : α} (h : Q r) : Returns (some r) Q :=
  ⟨r, rfl, h⟩

theorem Returns.imp {o : Option α} (h : Returns o Q) (hq : ∀ r, Q r → Q' r) : Returns o Q' := by
  obtain ⟨r, hr, hq'⟩ := h
  exact ⟨r, hr, hq r hq'⟩

theorem Returns.bind {o : Option β} {P : β → Prop} {f : β → Option α} (h : Returns o P)
    (hf : ∀ x, P x → Returns (f x) Q) : Returns (o >>= f) Q := by
  obtain ⟨x, rfl, hx⟩ := h
  exact hf x hx

/-- A value that fits is stored as it is. -/
theorem Returns.fit {w v : Nat} {f : Nat → Option α} (h : v < 2 ^ w) (hf : ∀ x, x = v → Returns (f x) Q) :
    Returns (Limbs.fit w v >>= f) Q := by
  rw [fit_of_lt h]
  exact hf v rfl

theorem Returns.less {a b : Nat} {f : Nat → Option α} (h : b ≤ a) (hf : ∀ x, x = a - b → Returns (f x) Q) :
    Returns (Limbs.less a b >>= f) Q := by
  rw [less_of_le h]
  exact hf _ rfl

end Checked

section Bits

theorem and_mask (x k : Nat) : x &&& (2 ^ k - 1) = x % 2 ^ k :=
  Nat.and_two_pow_sub_one_eq_mod x k

/-- Bits above those of the other number are added. -/
theorem or_shift {b k : Nat} (h : b < 2 ^ k) (a : Nat) : b ||| a <<< k = b + 2 ^ k * a := by
  rw [Nat.or_comm, ← Nat.shiftLeft_add_eq_or_of_lt h, Nat.shiftLeft_eq, Nat.mul_comm, Nat.add_comm]

/-- A mask works on the low bits and the high ones apart. -/
theorem and_split {a c : Nat} (n b d : Nat) (ha : a < 2 ^ n) (hc : c < 2 ^ n) :
    (a + 2 ^ n * b) &&& (c + 2 ^ n * d) = (a &&& c) + 2 ^ n * (b &&& d) := by
  have hac : a &&& c < 2 ^ n := Nat.lt_of_le_of_lt Nat.and_le_left ha
  apply Nat.eq_of_testBit_eq
  intro i
  rw [Nat.testBit_and, Nat.add_comm a, Nat.add_comm c, Nat.add_comm (a &&& c), Nat.testBit_two_pow_mul_add b ha,
    Nat.testBit_two_pow_mul_add d hc, Nat.testBit_two_pow_mul_add _ hac]
  by_cases hi : i < n
  · rw [if_pos hi, if_pos hi, if_pos hi, Nat.testBit_and]
  · rw [if_neg hi, if_neg hi, if_neg hi, Nat.testBit_and]

/-- A mask of few bits sees only the low bits. -/
theorem and_low {c : Nat} (n x : Nat) (hc : c < 2 ^ n) : x &&& c = x % 2 ^ n &&& c := by
  have hsplit := and_split n (x / 2 ^ n) 0 (Nat.mod_lt x (Nat.two_pow_pos n)) hc
  rwa [Nat.mod_add_div, Nat.mul_zero, Nat.add_zero, Nat.and_zero, Nat.mul_zero, Nat.add_zero] at hsplit

end Bits

section LittleEndian

/-- The value of some bytes, the least significant first. -/
def leValue (b : List UInt8) : Nat :=
  b.foldr (fun c v => c.toNat + 256 * v) 0

/-- A number in `n` bytes. -/
def leBytes (n v : Nat) : List UInt8 :=
  (List.range n).map fun i => UInt8.ofNat (v / 256 ^ i)

variable {a b : List UInt8}

theorem leValue_cons (c : UInt8) (b : List UInt8) : leValue (c :: b) = c.toNat + 256 * leValue b :=
  rfl

theorem leValue_append (a b : List UInt8) : leValue (a ++ b) = leValue a + 256 ^ a.length * leValue b := by
  induction a with
  | nil =>
    rw [List.nil_append, List.length_nil, Nat.pow_zero, Nat.one_mul]
    exact (Nat.zero_add _).symm
  | cons c a ih =>
    rw [List.cons_append, leValue_cons, leValue_cons, ih, List.length_cons]
    ring

theorem leValue_lt (b : List UInt8) : leValue b < 256 ^ b.length := by
  induction b with
  | nil => exact Nat.one_pos
  | cons c b ih =>
    rw [leValue_cons, List.length_cons, Nat.pow_succ]
    have hc := c.toNat_lt
    omega

theorem leValue_zeros (n : Nat) : leValue (List.replicate n 0) = 0 := by
  induction n with
  | zero => rfl
  | succ n ih =>
    rw [List.replicate_succ, leValue_cons, ih]
    rfl

theorem leValue_take (n : Nat) (b : List UInt8) : leValue (b.take n) = leValue b % 256 ^ n := by
  by_cases h : n ≤ b.length
  · have hsplit := leValue_append (b.take n) (b.drop n)
    have hlt := leValue_lt (b.take n)
    rw [List.take_append_drop, List.length_take_of_le h] at hsplit
    rw [List.length_take_of_le h] at hlt
    rw [hsplit, Nat.add_mul_mod_self_left, Nat.mod_eq_of_lt hlt]
  · have hle := Nat.le_of_lt (Nat.not_le.mp h)
    rw [List.take_of_length_le hle, Nat.mod_eq_of_lt]
    exact Nat.lt_of_lt_of_le (leValue_lt b) (Nat.pow_le_pow_right (by decide) hle)

theorem leValue_drop (n : Nat) (b : List UInt8) : leValue (b.drop n) = leValue b / 256 ^ n := by
  by_cases h : n ≤ b.length
  · have hsplit := leValue_append (b.take n) (b.drop n)
    have hlt := leValue_lt (b.take n)
    rw [List.take_append_drop, List.length_take_of_le h] at hsplit
    rw [List.length_take_of_le h] at hlt
    rw [hsplit, Nat.add_mul_div_left _ _ (Nat.pow_pos (by decide)), Nat.div_eq_of_lt hlt, Nat.zero_add]
  · have hle := Nat.le_of_lt (Nat.not_le.mp h)
    rw [List.drop_of_length_le hle, Nat.div_eq_of_lt]
    · rfl
    · exact Nat.lt_of_lt_of_le (leValue_lt b) (Nat.pow_le_pow_right (by decide) hle)

theorem leBytes_append (m n v : Nat) : leBytes (m + n) v = leBytes m v ++ leBytes n (v / 256 ^ m) := by
  rw [leBytes, List.range_add, List.map_append, List.map_map, leBytes, leBytes]
  refine congrArg _ (List.map_congr_left fun i _ => ?_)
  rw [Function.comp_apply, Nat.pow_add, Nat.div_div_eq_div_mul]

/-- Only the low bits of a number are written. -/
theorem leBytes_mod (n v : Nat) : leBytes n (v % 256 ^ n) = leBytes n v := by
  refine List.map_congr_left fun i hi => ?_
  have hlt := List.mem_range.mp hi
  refine UInt8.toNat_inj.mp ?_
  rw [UInt8.toNat_ofNat', UInt8.toNat_ofNat']
  obtain ⟨k, rfl⟩ : ∃ k, n = i + 1 + k := ⟨n - i - 1, by omega⟩
  rw [Nat.pow_add, Nat.pow_add, Nat.pow_one, Nat.mul_assoc, Nat.mod_mul_right_div_self, Nat.mod_mul_right_mod]

end LittleEndian

end Limbs
