import Mathlib.Data.Finset.Card
import Mathlib.Logic.Function.Iterate
import Mathlib.Data.Finset.Range

namespace FirstReturn

/-- Iterate `f` from `x` until a value below `bound` appears, for at most `fuel` rounds. -/
def walk (f : Nat → Nat) (bound : Nat) : Nat → Nat → Option Nat
  | 0, _ => none
  | fuel + 1, x => if f x < bound then some (f x) else walk f bound fuel (f x)

theorem walk_eq_some {f : Nat → Nat} {bound fuel x y : Nat} (h : walk f bound fuel x = some y) :
    ∃ n < fuel, f^[n + 1] x = y ∧ y < bound ∧ ∀ m < n, bound ≤ f^[m + 1] x := by
  induction fuel generalizing x with
  | zero => simp [walk] at h
  | succ fuel ih =>
    unfold walk at h
    split at h
    next hlt =>
      cases Option.some.inj h
      exact ⟨0, by omega, rfl, hlt, by omega⟩
    next hge =>
      obtain ⟨n, hn, hy, hb, hm⟩ := ih h
      refine ⟨n + 1, by omega, hy, hb, ?_⟩
      intro m hmn
      cases m with
      | zero => exact Nat.le_of_not_lt hge
      | succ m => exact hm m (by omega)

theorem walk_total {f : Nat → Nat} {bound fuel x n : Nat} (hn : n < fuel)
    (h : f^[n + 1] x < bound) : ∃ y, walk f bound fuel x = some y := by
  induction fuel generalizing x n with
  | zero => omega
  | succ fuel ih =>
    unfold walk
    split
    next => exact ⟨_, rfl⟩
    next hge =>
      cases n with
      | zero => exact absurd h hge
      | succ n => exact ih (by omega) h

section Permutation

variable {f : Nat → Nat} {size : Nat} (maps : ∀ x < size, f x < size)
  (inj : ∀ x < size, ∀ y < size, f x = f y → x = y)

include maps in
theorem iterate_lt {x : Nat} (hx : x < size) (n : Nat) : f^[n] x < size := by
  induction n with
  | zero => exact hx
  | succ n ih =>
    rw [Function.iterate_succ_apply']
    exact maps _ ih

include maps inj

theorem iterate_cancel {x y : Nat} (hx : x < size) (hy : y < size) (k : Nat) {n : Nat}
    (h : f^[n] x = f^[n + k] y) : x = f^[k] y := by
  induction n with
  | zero => simpa using h
  | succ n ih =>
    apply ih
    rw [Function.iterate_succ_apply', show n + 1 + k = (n + k) + 1 by omega,
      Function.iterate_succ_apply'] at h
    exact inj _ (iterate_lt maps hx n) _ (iterate_lt maps hy (n + k)) h

/-- On a finite set an injective map brings every point back to itself. -/
theorem returns {x : Nat} (hx : x < size) : ∃ n < size, f^[n + 1] x = x := by
  obtain ⟨i, hi, j, hj, hne, heq⟩ := Finset.exists_ne_map_eq_of_card_lt_of_maps_to
    (s := Finset.range (size + 1)) (t := Finset.range size) (f := fun n => f^[n] x)
    (by simp) (fun n _ => by simpa using iterate_lt maps hx n)
  rw [Finset.mem_range] at hi hj
  rcases Nat.lt_or_gt_of_ne hne with hlt | hlt
  · refine ⟨j - i - 1, by omega, (iterate_cancel maps inj hx hx (j - i - 1 + 1) (n := i) ?_).symm⟩
    rw [show i + (j - i - 1 + 1) = j by omega]
    exact heq
  · refine ⟨i - j - 1, by omega, (iterate_cancel maps inj hx hx (i - j - 1 + 1) (n := j) ?_).symm⟩
    rw [show j + (i - j - 1 + 1) = i by omega]
    exact heq.symm

theorem walk_exists {bound x : Nat} (hb : bound ≤ size) (hx : x < bound) :
    ∃ y, walk f bound size x = some y := by
  obtain ⟨n, hn, h⟩ := returns maps inj (x := x) (by omega)
  exact walk_total hn (by omega)

/-- Two walks that stop at the same value started at the same value. -/
theorem walk_injective {bound x y z : Nat} (hb : bound ≤ size) (hx : x < bound) (hy : y < bound)
    (h₁ : walk f bound size x = some z) (h₂ : walk f bound size y = some z) : x = y := by
  obtain ⟨n, _, hxn, _, hxm⟩ := walk_eq_some h₁
  obtain ⟨m, _, hym, _, hyn⟩ := walk_eq_some h₂
  rcases Nat.lt_trichotomy n m with hlt | heq | hlt
  · have hxy := iterate_cancel maps inj (x := x) (y := y) (by omega) (by omega) (m - n)
      (n := n + 1) (by rw [show n + 1 + (m - n) = m + 1 by omega, hxn, hym])
    have := hyn (m - n - 1) (by omega)
    rw [show m - n - 1 + 1 = m - n by omega, ← hxy] at this
    omega
  · subst heq
    exact iterate_cancel maps inj (x := x) (y := y) (by omega) (by omega) 0 (n := n + 1)
      (by rw [Nat.add_zero, hxn, hym])
  · have hyx := iterate_cancel maps inj (x := y) (y := x) (by omega) (by omega) (n - m)
      (n := m + 1) (by rw [show m + 1 + (n - m) = n + 1 by omega, hxn, hym])
    have := hxm (n - m - 1) (by omega)
    rw [show n - m - 1 + 1 = n - m by omega, ← hyx] at this
    omega

end Permutation

end FirstReturn
