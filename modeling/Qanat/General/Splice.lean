import Mathlib.Algebra.Order.Ring.Nat
import Mathlib.Data.List.Basic

namespace Splice

variable {α : Type}

/-- The entries of `b` from `i` on, at most `n` of them. -/
def window (b : List α) (i n : Nat) : List α :=
  (b.drop i).take n

/-- A copy of `p` into `b` at `i`. -/
def splice (b : List α) (i : Nat) (p : List α) : List α :=
  b.take i ++ p ++ b.drop (i + p.length)

section Window

variable {b p : List α} {i j m n : Nat}

theorem length_window (h : i + n ≤ b.length) : (window b i n).length = n := by
  rw [window, List.length_take, List.length_drop]
  omega

@[simp] theorem window_zero (b : List α) (i : Nat) : window b i 0 = [] :=
  List.take_zero

theorem drop_window (b : List α) (i n m : Nat) : (window b i n).drop m = window b (i + m) (n - m) := by
  rw [window, window, List.drop_take, List.drop_drop]

theorem window_append (b : List α) (i m n : Nat) : window b i (m + n) = window b i m ++ window b (i + m) n := by
  rw [window, window, window, ← List.drop_drop]
  exact List.take_add

theorem length_splice (h : i + p.length ≤ b.length) : (splice b i p).length = b.length := by
  rw [splice, List.length_append, List.length_append, List.length_take, List.length_drop]
  omega

/-- What was copied is read back. -/
theorem window_splice (h : i ≤ b.length) : window (splice b i p) i p.length = p := by
  have hlen : (b.take i).length = i := List.length_take_of_le h
  rw [window, splice, List.append_assoc, List.drop_append_of_le_length hlen.ge, List.drop_of_length_le hlen.le,
    List.nil_append, List.take_left]

/-- A copy leaves what lies before it. -/
theorem window_splice_before (hj : j + n ≤ i) (h : i ≤ b.length) : window (splice b i p) j n = window b j n := by
  have hlen : (b.take i).length = i := List.length_take_of_le h
  rw [window, splice, List.append_assoc, List.drop_append_of_le_length (by omega),
    List.take_append_of_le_length (by rw [List.length_drop]; omega), window, List.drop_take, List.take_take,
    Nat.min_eq_left (by omega)]

end Window

end Splice
