import Mathlib.Data.List.Count
import Mathlib.Tactic.Ring
import Mathlib.Order.Basic

namespace Bucket

/-- A token bucket: what it holds, and when it was last filled up. -/
structure State where
  tokens : Nat
  stamp : Nat

variable (gain : Nat → Nat) (cap unit : Nat)

/-- What time has added, up to the brim. A clock that has not moved on adds nothing. -/
def refill (s : State) (now : Nat) : State :=
  if s.stamp < now then ⟨min (s.tokens + gain (now - s.stamp)) cap, now⟩ else s

/-- An attempt to spend a unit, and whether it was spent. -/
def attempt (s : State) (now : Nat) (wants : Bool) : Bool × State :=
  let s := refill gain cap s now
  if wants = true ∧ unit ≤ s.tokens then (true, { s with tokens := s.tokens - unit }) else (false, s)

/-- The times at which a run of attempts spends. -/
def spends : State → List (Nat × Bool) → List Nat
  | _, [] => []
  | s, (now, wants) :: l =>
    let r := attempt gain cap unit s now wants
    if r.1 then now :: spends r.2 l else spends r.2 l

variable {s : State}

theorem refill_stamp (s : State) (now : Nat) : (refill gain cap s now).stamp = max s.stamp now := by
  unfold refill
  split
  next h => exact (max_eq_right h.le).symm
  next h => exact (max_eq_left (Nat.not_lt.mp h)).symm

theorem refill_le (h : s.tokens ≤ cap) (now : Nat) : (refill gain cap s now).tokens ≤ cap := by
  unfold refill
  split
  next => exact Nat.min_le_right _ _
  next => exact h

theorem refill_refill (s : State) (now : Nat) :
    refill gain cap (refill gain cap s now) now = refill gain cap s now := by
  have hstamp := refill_stamp gain cap s now
  conv_lhs => unfold refill
  exact if_neg (by rw [← refill, hstamp]; exact Nat.not_lt.mpr (le_max_right _ _))

theorem attempt_stamp (s : State) (now : Nat) (wants : Bool) :
    (attempt gain cap unit s now wants).2.stamp = max s.stamp now := by
  rw [← refill_stamp gain cap s now]
  unfold attempt
  dsimp only
  split <;> rfl

theorem attempt_le (h : s.tokens ≤ cap) (now : Nat) (wants : Bool) :
    (attempt gain cap unit s now wants).2.tokens ≤ cap := by
  have hle := refill_le gain cap h now
  unfold attempt
  dsimp only
  split
  next => exact (Nat.sub_le _ _).trans hle
  next => exact hle

theorem countP_spends_late {l : List (Nat × Bool)} {b : Nat} (h : ∀ x ∈ l, b < x.1) (s : State) :
    (spends gain cap unit s l).countP (· ≤ b) = 0 := by
  induction l generalizing s with
  | nil => rfl
  | cons x l ih =>
    have hx := h x List.mem_cons_self
    have htail := ih fun y hy => h y (List.mem_cons_of_mem _ hy)
    unfold spends
    dsimp only
    split
    next =>
      rw [List.countP_cons_of_neg (by simpa using hx)]
      exact htail _
    next => exact htail _

theorem spends_refill (s : State) (x : Nat × Bool) (l : List (Nat × Bool)) :
    spends gain cap unit (refill gain cap s x.1) (x :: l) = spends gain cap unit s (x :: l) := by
  have hsame : attempt gain cap unit (refill gain cap s x.1) x.1 x.2 = attempt gain cap unit s x.1 x.2 := by
    unfold attempt
    rw [refill_refill gain cap]
  unfold spends
  rw [hsame]

section Charge

variable {num den : Nat} (hgain : ∀ d, den * gain d ≤ num * d)
include hgain

theorem refill_charge (s : State) (now : Nat) :
    den * (refill gain cap s now).tokens + num * s.stamp ≤ den * s.tokens + num * (refill gain cap s now).stamp := by
  unfold refill
  split
  next h =>
    have hadd := hgain (now - s.stamp)
    have hmin : den * min (s.tokens + gain (now - s.stamp)) cap ≤ den * (s.tokens + gain (now - s.stamp)) :=
      Nat.mul_le_mul_left _ (Nat.min_le_left _ _)
    rw [Nat.mul_add] at hmin
    have hsplit : num * now = num * (now - s.stamp) + num * s.stamp := by
      rw [← Nat.mul_add, Nat.sub_add_cancel h.le]
    show den * min (s.tokens + gain (now - s.stamp)) cap + num * s.stamp ≤ den * s.tokens + num * now
    omega
  next => exact Nat.le_refl _

/-- What is spent in one attempt, and what is left after it, was there before or came with time. -/
theorem attempt_charge (s : State) (now : Nat) (wants : Bool) :
    den * (unit * (attempt gain cap unit s now wants).1.toNat) + den * (attempt gain cap unit s now wants).2.tokens +
      num * s.stamp ≤ den * s.tokens + num * (attempt gain cap unit s now wants).2.stamp := by
  have h := refill_charge gain cap hgain s now
  unfold attempt
  dsimp only
  split
  next hok =>
    have hsplit : den * (refill gain cap s now).tokens =
        den * unit + den * ((refill gain cap s now).tokens - unit) := by
      rw [← Nat.mul_add, Nat.add_sub_cancel' hok.2]
    rw [Bool.toNat_true, Nat.mul_one]
    show den * unit + den * ((refill gain cap s now).tokens - unit) + num * s.stamp ≤
      den * s.tokens + num * (refill gain cap s now).stamp
    omega
  next =>
    rw [Bool.toNat_false, Nat.mul_zero, Nat.mul_zero, Nat.zero_add]
    exact h

/-- All that is spent up to a time was there at first or came with time. -/
theorem spends_charge {l : List (Nat × Bool)} (hl : l.Pairwise (·.1 ≤ ·.1)) (b : Nat) (s : State) :
    den * (unit * (spends gain cap unit s l).countP (· ≤ b)) + num * s.stamp ≤
      den * s.tokens + num * max s.stamp b := by
  have hmax : num * s.stamp ≤ num * max s.stamp b := Nat.mul_le_mul_left _ (le_max_left _ _)
  induction l generalizing s with
  | nil =>
    show den * (unit * 0) + num * s.stamp ≤ _
    rw [Nat.mul_zero, Nat.mul_zero]
    omega
  | cons x l ih =>
    obtain ⟨hx, hl⟩ := List.pairwise_cons.mp hl
    rcases Nat.lt_or_ge b x.1 with hlt | hge
    · have hall : ∀ y ∈ x :: l, b < y.1 := by
        intro y hy
        rcases List.mem_cons.mp hy with rfl | hy
        · exact hlt
        · exact Nat.lt_of_lt_of_le hlt (hx y hy)
      rw [countP_spends_late gain cap unit hall, Nat.mul_zero, Nat.mul_zero]
      omega
    · have hcharge := attempt_charge gain cap unit hgain s x.1 x.2
      have hstamp := attempt_stamp gain cap unit s x.1 x.2
      have hnext := ih hl (attempt gain cap unit s x.1 x.2).2 (Nat.mul_le_mul_left _ (le_max_left _ _))
      rw [hstamp, max_assoc, max_eq_right hge] at hnext
      rw [hstamp] at hcharge
      unfold spends
      dsimp only
      cases hr : (attempt gain cap unit s x.1 x.2).1 with
      | true =>
        rw [hr, Bool.toNat_true] at hcharge
        rw [if_pos rfl, List.countP_cons_of_pos (by simpa using hge), Nat.mul_add unit, Nat.mul_add den]
        omega
      | false =>
        rw [hr, Bool.toNat_false, Nat.mul_zero, Nat.mul_zero] at hcharge
        rw [if_neg Bool.false_ne_true]
        omega

/-- In no interval is more spent than a full bucket and what the interval adds to it. -/
theorem spends_within {l : List (Nat × Bool)} (hl : l.Pairwise (·.1 ≤ ·.1)) (hs : s.tokens ≤ cap) (a d : Nat) :
    den * (unit * (spends gain cap unit s l).countP fun t => a ≤ t ∧ t ≤ a + d) ≤ den * cap + num * d := by
  induction l generalizing s with
  | nil =>
    show den * (unit * 0) ≤ _
    rw [Nat.mul_zero, Nat.mul_zero]
    exact Nat.zero_le _
  | cons x l ih =>
    rcases Nat.lt_or_ge x.1 a with hlt | hge
    · have hnext := ih (List.pairwise_cons.mp hl).2 (attempt_le gain cap unit hs x.1 x.2)
      unfold spends
      dsimp only
      split
      next =>
        rw [List.countP_cons_of_neg (by simp; omega)]
        exact hnext
      next => exact hnext
    · have hcharge := spends_charge gain cap unit hgain hl (a + d) (refill gain cap s x.1)
      have hfull := Nat.mul_le_mul_left den (refill_le gain cap hs x.1)
      have hstart : a ≤ (refill gain cap s x.1).stamp := by
        rw [refill_stamp]
        exact hge.trans (le_max_right _ _)
      have hspan : num * max (refill gain cap s x.1).stamp (a + d) ≤ num * (refill gain cap s x.1).stamp + num * d := by
        rw [← Nat.mul_add]
        exact Nat.mul_le_mul_left _ (max_le (Nat.le_add_right _ _) (Nat.add_le_add_right hstart d))
      rw [spends_refill] at hcharge
      have hmono : (spends gain cap unit s (x :: l)).countP (fun t => decide (a ≤ t ∧ t ≤ a + d)) ≤
          (spends gain cap unit s (x :: l)).countP (· ≤ a + d) :=
        List.countP_mono_left fun t _ ht => by
          simp only [decide_eq_true_eq] at ht ⊢
          exact ht.2
      have hscale := Nat.mul_le_mul_left den (Nat.mul_le_mul_left unit hmono)
      omega

end Charge

end Bucket
