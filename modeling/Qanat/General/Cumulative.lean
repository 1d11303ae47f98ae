import Mathlib.Algebra.Order.BigOperators.Group.List
import Mathlib.Algebra.Order.Group.Nat
import Mathlib.Algebra.Order.Ring.Nat

namespace Cumulative

variable {α β : Type*}

/-- The sum of the first `k` counts. -/
def upto (f : α → Nat) (l : List α) (k : Nat) : Nat :=
  ((l.take k).map f).sum

theorem upto_succ (f : α → Nat) {l : List α} {k : Nat} {a : α} (h : l[k]? = some a) :
    upto f l (k + 1) = upto f l k + f a := by
  unfold upto
  rw [List.take_add_one, h]
  simp

theorem upto_mono (f : α → Nat) (l : List α) {j k : Nat} (h : j ≤ k) : upto f l j ≤ upto f l k := by
  have hsplit : l.take k = l.take j ++ (l.take k).drop j := by
    have := List.take_append_drop j (l.take k)
    rw [List.take_take, Nat.min_eq_left h] at this
    exact this.symm
  unfold upto
  rw [hsplit, List.map_append, List.sum_append]
  exact Nat.le_add_right _ _

theorem upto_length (f : α → Nat) (l : List α) : upto f l l.length = (l.map f).sum := by
  simp [upto]

/-- Every index below the sum is owned by one of the counts. -/
theorem exists_owner (f : α → Nat) {l : List α} {i : Nat} (h : i < (l.map f).sum) :
    ∃ k a, l[k]? = some a ∧ upto f l k ≤ i ∧ i < upto f l k + f a := by
  induction l generalizing i with
  | nil => simp at h
  | cons x l ih =>
    rcases Nat.lt_or_ge i (f x) with hx | hx
    · exact ⟨0, x, rfl, Nat.zero_le _, by simpa [upto] using hx⟩
    · rw [List.map_cons, List.sum_cons] at h
      obtain ⟨k, a, hk, hle, hlt⟩ := ih (i := i - f x) (by omega)
      have hupto : upto f (x :: l) (k + 1) = f x + upto f l k := by simp [upto]
      exact ⟨k + 1, a, by simpa using hk, by omega, by omega⟩

/-- Concatenation is indexed by cumulative sums of lengths. -/
theorem getElem?_flatMap (g : α → List β) {l : List α} {k : Nat} {a : α} (h : l[k]? = some a) {j : Nat}
    (hj : j < (g a).length) :
    (l.flatMap g)[upto (fun x => (g x).length) l k + j]? = (g a)[j]? := by
  induction l generalizing k with
  | nil => simp at h
  | cons x l ih =>
    cases k with
    | zero =>
      have hx : x = a := by simpa using h
      subst hx
      simp only [upto, List.take_zero, List.map_nil, List.sum_nil, Nat.zero_add, List.flatMap_cons]
      exact List.getElem?_append_left hj
    | succ k =>
      have := ih (by simpa using h)
      rw [← this]
      simp only [upto, List.take_succ_cons, List.map_cons, List.sum_cons, List.flatMap_cons, Nat.add_assoc]
      rw [List.getElem?_append_right (Nat.le_add_right _ _), Nat.add_sub_cancel_left]

end Cumulative
