import Qanat.Bandit
import Qanat.General.Limbs

namespace Qanat

/-- With `a ≤ d` the long division never overflows and ends at the exact quotient. -/
theorem mulDivLoop_spec {a b d : Nat} (hd : 0 < d) (ha : a ≤ d) (hb : b < 2 ^ 64) (bit : Nat)
    {q r : Nat} (hr : r < d) (h : q * d + r = a * (b >>> bit)) :
    mulDivLoop a b d bit q r = some (a * b / d) := by
  induction bit generalizing q r with
  | zero =>
    rw [Nat.shiftRight_zero] at h
    rw [mulDivLoop, ← h, Nat.add_comm, Nat.add_mul_div_right _ _ hd, Nat.div_eq_of_lt hr, Nat.zero_add]
  | succ bit ih =>
    have hhalf : b >>> (bit + 1) = b >>> bit / 2 := by rw [Nat.shiftRight_add, Nat.shiftRight_one]
    have hbit : (b >>> bit) &&& 1 = b >>> bit % 2 := Nat.and_one_is_mod _
    have hbs : b >>> bit ≤ b := by
      rw [Nat.shiftRight_eq_div_pow]
      exact Nat.div_le_self _ _
    have hle {p B s : Nat} (hs : p * d + s = a * B) : p ≤ B := by
      apply Nat.le_of_mul_le_mul_right _ hd
      calc p * d ≤ a * B := by omega
        _ ≤ d * B := Nat.mul_le_mul_right _ ha
        _ = B * d := Nat.mul_comm _ _
    have hq := hle h
    unfold mulDivLoop
    generalize b >>> bit = B at *
    rw [hhalf] at h hq
    have hB : B = B / 2 * 2 + B % 2 := (Nat.div_add_mod' B 2).symm
    rw [if_neg (by omega)]
    dsimp only
    generalize hq' : (if d - r ≤ r then q * 2 + 1 else q * 2) = q'
    generalize hr' : (if d - r ≤ r then r - (d - r) else r * 2) = r'
    have hdouble : q' * d + r' = a * (B / 2 * 2) := by
      rw [← Nat.mul_assoc, ← h, ← hq', ← hr']
      split
      next => rw [Nat.add_mul, Nat.add_mul, Nat.mul_right_comm]; omega
      next => rw [Nat.add_mul, Nat.mul_right_comm]
    have hrlt : r' < d := by
      rw [← hr']
      split <;> omega
    have hqle := hle hdouble
    rw [hbit]
    split
    next hodd =>
      have hone : B % 2 = 1 := by omega
      have htot : q' * d + r' + a = a * B := by
        rw [hdouble]
        conv_rhs => rw [hB, hone, Nat.mul_add, Nat.mul_one]
      split
      next hge =>
        rw [if_neg (by omega)]
        exact ih (by omega) (by rw [Nat.add_mul]; omega)
      next => exact ih (by omega) (by omega)
    next heven =>
      refine ih hrlt ?_
      rw [hdouble]
      congr 1
      omega

theorem mulDivFloor_eq {a b d : Nat} (hd : 0 < d) (ha : a ≤ d) (hb : b ≤ d) (h64 : d < 2 ^ 64) :
    mulDivFloor a b d = some (a * b / d) := by
  rw [mulDivFloor, if_neg (by omega)]
  apply mulDivLoop_spec hd ha (by omega) 64 hd
  rw [Nat.shiftRight_eq_div_pow, Nat.div_eq_of_lt (by omega)]
  omega

section Checked

open Limbs (fit less fit_of_lt less_of_le)

/-- The doubling in the loop of `mul_div_floor`, where a sum or product above 64 bits, or a difference below zero, is an
error. -/
def mulDivDouble (d q r : Nat) : Option (Nat × Nat) := do
  let q ← fit 64 (q * 2)
  let gap ← less d r
  if gap ≤ r then do
    let r ← less r gap
    let q ← fit 64 (q + 1)
    some (q, r)
  else do
    let r ← fit 64 (r * 2)
    some (q, r)

/-- The loop of `mul_div_floor` with the same errors; the inner `none` is `return false`. -/
def mulDivChecked (a b d : Nat) : Nat → Nat → Nat → Option (Option Nat)
  | 0, q, _ => some (some q)
  | bit + 1, q, r =>
    if (2 ^ 64 - 1) / 2 < q then some none
    else do
      let (q, r) ← mulDivDouble d q r
      if (b >>> bit) &&& 1 ≠ 0 then do
        let room ← less d a
        if room ≤ r then do
          let r ← less r room
          if q = 2 ^ 64 - 1 then some none
          else do
            let q ← fit 64 (q + 1)
            mulDivChecked a b d bit q r
        else do
          let r ← fit 64 (r + a)
          mulDivChecked a b d bit q r
      else mulDivChecked a b d bit q r

theorem mulDivDouble_eq {d q r : Nat} (hr : r < d) (h64 : d < 2 ^ 64) (hq : ¬(2 ^ 64 - 1) / 2 < q) :
    mulDivDouble d q r =
      some (if d - r ≤ r then q * 2 + 1 else q * 2, if d - r ≤ r then r - (d - r) else r * 2) := by
  rw [mulDivDouble, fit_of_lt (by omega), less_of_le hr.le]
  dsimp only [Option.bind_eq_bind, Option.bind_some]
  split
  next hge => rw [less_of_le hge, fit_of_lt (by omega), Option.bind_some, Option.bind_some]
  next => rw [fit_of_lt (by omega), Option.bind_some]

/-- No operation of the loop leaves 64 bits, whatever the quotient is: the remainder stays below the divisor. -/
theorem mulDivChecked_eq {a d : Nat} (ha : a ≤ d) (h64 : d < 2 ^ 64) (b bit : Nat) {q r : Nat} (hr : r < d) :
    mulDivChecked a b d bit q r = some (mulDivLoop a b d bit q r) := by
  induction bit generalizing q r with
  | zero => rfl
  | succ bit ih =>
    unfold mulDivChecked mulDivLoop
    by_cases hq : (2 ^ 64 - 1) / 2 < q
    · rw [if_pos hq, if_pos hq]
    · rw [if_neg hq, if_neg hq, mulDivDouble_eq hr h64 hq]
      have hlt : (if d - r ≤ r then r - (d - r) else r * 2) < d := by split <;> omega
      have hfit : (if d - r ≤ r then q * 2 + 1 else q * 2) < 2 ^ 64 := by split <;> omega
      generalize (if d - r ≤ r then q * 2 + 1 else q * 2) = q' at *
      generalize (if d - r ≤ r then r - (d - r) else r * 2) = r' at *
      dsimp only [Option.bind_eq_bind, Option.bind_some]
      split
      next =>
        rw [less_of_le ha, Option.bind_some]
        split
        next hge =>
          rw [less_of_le hge, Option.bind_some]
          split
          next => rfl
          next hmax =>
            rw [fit_of_lt (by omega), Option.bind_some]
            exact ih (by omega)
        next =>
          rw [fit_of_lt (by omega), Option.bind_some]
          exact ih (by omega)
      next => exact ih hlt

/-- For parts of a divisor the function succeeds with the exact quotient, and no step of it overflows. -/
theorem mulDivFloor_exact {a b d : Nat} (hd : 0 < d) (ha : a ≤ d) (hb : b ≤ d) (h64 : d < 2 ^ 64) :
    mulDivFloor a b d = some (a * b / d) ∧ mulDivChecked a b d 64 0 0 = some (some (a * b / d)) := by
  have hvalue := mulDivFloor_eq hd ha hb h64
  refine ⟨hvalue, ?_⟩
  rw [mulDivFloor, if_neg (by omega)] at hvalue
  rw [mulDivChecked_eq ha h64 b 64 hd, hvalue]

/-- The whole range, where the product needs 128 bits. -/
theorem mulDivFloor_exact_full : mulDivFloor (2 ^ 64 - 1) (2 ^ 64 - 2) (2 ^ 64 - 1) = some (2 ^ 64 - 2) ∧
    mulDivChecked (2 ^ 64 - 1) (2 ^ 64 - 2) (2 ^ 64 - 1) 64 0 0 = some (some (2 ^ 64 - 2)) :=
  mulDivFloor_exact (by decide) (by decide) (by decide) (by decide)

end Checked

/-- A floored proportional share grows with the prefix, and by no more than the prefix does. -/
theorem share_step (budget whole : Nat) {c c' : Nat} (hw : 0 < whole) (hb : budget ≤ whole) (hc : c ≤ c') :
    budget * c / whole ≤ budget * c' / whole ∧
      budget * c' / whole ≤ budget * c / whole + (c' - c) := by
  refine ⟨Nat.div_le_div_right (Nat.mul_le_mul_left _ hc), ?_⟩
  calc budget * c' / whole ≤ (budget * c + whole * (c' - c)) / whole := by
        apply Nat.div_le_div_right
        have : budget * c' = budget * c + budget * (c' - c) := by
          rw [← Nat.mul_add, Nat.add_sub_cancel' hc]
        rw [this]
        exact Nat.add_le_add_left (Nat.mul_le_mul_right _ hb) _
    _ = budget * c / whole + (c' - c) := Nat.add_mul_div_left _ _ hw

/-- What `bandit_shape` settles: `n` blocks of `span` addresses, the last one perhaps short. -/
structure Bandit.Shaped (t : Bandit) : Prop where
  span_pos : 0 < t.span
  n_pos : 0 < t.n
  n_le : t.n ≤ maxBlocks
  span_lt : t.span < 2 ^ 32
  total_lt : t.total < 2 ^ 64
  below : (t.n - 1) * t.span < t.total
  above : t.total ≤ t.n * t.span

theorem banditShape_spec {total requested span blocks : Nat} (hr : requested < 2 ^ 32)
    (h : banditShape total requested = some (span, blocks)) :
    0 < span ∧ 0 < blocks ∧ blocks ≤ maxBlocks ∧ span < 2 ^ 32 ∧ (blocks - 1) * span < total ∧
      total ≤ blocks * span := by
  unfold banditShape at h
  split at h
  next => simp at h
  next h0 =>
    dsimp only at h
    generalize (total / maxBlocks + if total % maxBlocks ≠ 0 then 1 else 0) = need at h
    by_cases hneed : 0xFFFFFFFF < need
    · simp [hneed] at h
    · rw [if_neg hneed] at h
      by_cases hcount : (total / max requested need +
          if total % max requested need ≠ 0 then 1 else 0) = 0 ∨ maxBlocks <
          (total / max requested need + if total % max requested need ≠ 0 then 1 else 0)
      · rw [if_pos hcount] at h
        simp at h
      · rw [if_neg hcount] at h
        obtain ⟨hs, hb⟩ := Prod.mk.inj (Option.some.inj h)
        have hspan : 0 < span := by omega
        rw [hs] at hb hcount
        have hdiv := Nat.div_add_mod total span
        rw [Nat.mul_comm] at hdiv
        have hlt := Nat.mod_lt total hspan
        rcases Nat.eq_zero_or_pos (total % span) with hmod | hmod
        · simp only [hmod, ne_eq, not_true_eq_false, if_false, Nat.add_zero] at hb hcount
          have hlast : (blocks - 1) * span + span = blocks * span := by
            rw [← Nat.succ_mul, Nat.succ_eq_add_one, Nat.sub_add_cancel (by omega)]
          rw [hb] at hdiv
          exact ⟨hspan, by omega, by omega, by omega, by omega, by omega⟩
        · simp only [show total % span ≠ 0 by omega, ne_eq, not_false_eq_true, if_true] at hb hcount
          have hfull : blocks * span = total / span * span + span := by
            rw [← hb, Nat.add_mul, Nat.one_mul]
          have hrest : (blocks - 1) * span = total / span * span := by
            rw [← hb, Nat.add_sub_cancel]
          exact ⟨hspan, by omega, by omega, by omega, by omega, by omega⟩

theorem banditInit_shaped {total requested explore : Nat} {seed : UInt64} {t : Bandit}
    (hr : requested < 2 ^ 32) (ht : total < 2 ^ 64)
    (h : banditInit total requested explore seed = some t) : t.Shaped := by
  unfold banditInit at h
  split at h
  next => simp at h
  next span blocks hshape =>
    obtain ⟨h1, h2, h3, h4, h5, h6⟩ := banditShape_spec hr hshape
    cases Option.some.inj h
    exact ⟨h1, h2, h3, h4, ht, h5, h6⟩

namespace Bandit.Shaped

variable {t : Bandit} (ht : t.Shaped)
include ht

theorem mul_lt {k : Nat} (hk : k < t.n) : k * t.span < t.total :=
  Nat.lt_of_le_of_lt (Nat.mul_le_mul_right _ (by omega)) ht.below

theorem capacity_of_lt {k : Nat} (hk : k < t.n) : blockCapacityPrefix t k = k * t.span := by
  have := ht.mul_lt hk
  unfold blockCapacityPrefix
  split
  next h => rw [h, Nat.zero_mul]
  next => omega

theorem capacity_n : blockCapacityPrefix t t.n = t.total := by
  have := ht.above
  have := ht.n_pos
  rw [blockCapacityPrefix, if_neg (by omega)]
  omega

theorem capacity_succ {k : Nat} (hk : k < t.n) :
    blockCapacityPrefix t (k + 1) = blockCapacityPrefix t k + blockSpan t k := by
  have hlt := ht.mul_lt hk
  rw [ht.capacity_of_lt hk, blockCapacityPrefix, if_neg (by omega), blockSpan, Nat.add_mul, Nat.one_mul]
  split <;> omega

theorem blockSpan_pos {k : Nat} (hk : k < t.n) : 0 < blockSpan t k := by
  have := ht.mul_lt hk
  have := ht.span_pos
  unfold blockSpan
  dsimp only
  split <;> omega

omit ht in
theorem blockSpan_le (k : Nat) : blockSpan t k ≤ t.span := by
  unfold blockSpan
  dsimp only
  split <;> omega

theorem le_capacity {k : Nat} (hk : k ≤ t.n) : k ≤ blockCapacityPrefix t k := by
  induction k with
  | zero => exact Nat.zero_le _
  | succ k ih =>
    have := ht.blockSpan_pos (k := k) (by omega)
    rw [ht.capacity_succ (by omega)]
    exact Nat.add_le_add (ih (by omega)) this

/-- The blocks left over each hold an address, so a prefix leaves room for them. -/
theorem capacity_room {k : Nat} (hk : k ≤ t.n) :
    blockCapacityPrefix t k + (t.n - k) ≤ t.total := by
  induction hj : t.n - k generalizing k with
  | zero =>
    rw [show k = t.n by omega, ht.capacity_n]
    omega
  | succ j ih =>
    have := ih (k := k + 1) (by omega) (by omega)
    have := ht.blockSpan_pos (k := k) (by omega)
    have := ht.capacity_succ (k := k) (by omega)
    omega

end Bandit.Shaped

/-- The quota of the first `k` blocks as a plain number. -/
def quotaPrefix (t : Bandit) (k : Nat) : Nat :=
  if t.n ≤ t.exploreTotal then
    k + (t.exploreTotal - t.n) * (blockCapacityPrefix t k - k) / (t.total - t.n)
  else t.exploreTotal * blockCapacityPrefix t k / t.total

section Quota

variable {t : Bandit} (ht : t.Shaped) (hE : t.exploreTotal ≤ t.total)
include ht hE

theorem quotaPrefix_n : quotaPrefix t t.n = t.exploreTotal := by
  have hpos := ht.below
  unfold quotaPrefix
  rw [ht.capacity_n]
  split
  next hn =>
    rcases Nat.eq_zero_or_pos (t.total - t.n) with h0 | h0
    · rw [h0, Nat.div_zero]
      omega
    · rw [Nat.mul_div_cancel _ h0]
      omega
  next => rw [Nat.mul_div_cancel _ (by omega)]

theorem exploreQuotaPrefix_eq {k : Nat} (hk : k ≤ t.n) :
    exploreQuotaPrefix t k = some (quotaPrefix t k) := by
  have hpos := ht.below
  have hlt := ht.total_lt
  unfold exploreQuotaPrefix
  dsimp only
  split
  next h0 =>
    subst h0
    simp [quotaPrefix, blockCapacityPrefix]
  next =>
    split
    next hge => rw [show k = t.n by omega, quotaPrefix_n ht hE]
    next hlt =>
      have hroom := ht.capacity_room hk
      split
      next hn =>
        split
        next h0 => rw [quotaPrefix, if_pos hn, h0, Nat.div_zero, Nat.add_zero]
        next h0 =>
          rw [mulDivFloor_eq (by omega) (by omega) (by omega) (by omega), quotaPrefix, if_pos hn]
          rfl
      next hn => rw [mulDivFloor_eq (by omega) hE (by omega) (by omega), quotaPrefix, if_neg hn]

/-- Each block's quota fits the block. -/
theorem quotaPrefix_step {k : Nat} (hk : k < t.n) :
    quotaPrefix t k ≤ quotaPrefix t (k + 1) ∧
      quotaPrefix t (k + 1) ≤ quotaPrefix t k + blockSpan t k := by
  have hcap := ht.capacity_succ hk
  have hpos := ht.blockSpan_pos hk
  have hle := ht.le_capacity (k := k) (by omega)
  have hbelow := ht.below
  unfold quotaPrefix
  split
  next hn =>
    rcases Nat.eq_zero_or_pos (t.total - t.n) with h0 | h0
    · rw [h0, Nat.div_zero, Nat.div_zero]
      omega
    · have := share_step (t.exploreTotal - t.n) _ h0 (by omega)
        (show blockCapacityPrefix t k - k ≤ blockCapacityPrefix t (k + 1) - (k + 1) by omega)
      omega
  next hn =>
    have := share_step t.exploreTotal t.total (by omega) hE
      (show blockCapacityPrefix t k ≤ blockCapacityPrefix t (k + 1) by omega)
    omega

theorem quotaPrefix_mono {j k : Nat} (hjk : j ≤ k) (hk : k ≤ t.n) :
    quotaPrefix t j ≤ quotaPrefix t k := by
  induction k with
  | zero => rw [show j = 0 by omega]
  | succ k ih =>
    rcases Nat.lt_or_ge j (k + 1) with h | h
    · exact Nat.le_trans (ih (by omega) (by omega)) (quotaPrefix_step ht hE (by omega)).1
    · rw [show j = k + 1 by omega]

end Quota

end Qanat
