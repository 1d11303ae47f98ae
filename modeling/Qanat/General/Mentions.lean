import Mathlib.Algebra.Order.Ring.Nat
import Mathlib.Data.List.Dedup

namespace Mentions

variable {α : Type*} [DecidableEq α]

/-- The members of a list in the order of their first mention. -/
def first : List α → List α
  | [] => []
  | a :: l => a :: (first l).filter (· ≠ a)

theorem mem_first {a : α} {l : List α} : a ∈ first l ↔ a ∈ l := by
  induction l with
  | nil => exact Iff.rfl
  | cons b l ih =>
    rw [first, List.mem_cons, List.mem_cons, List.mem_filter, ih, decide_eq_true_eq]
    by_cases h : a = b
    · simp [h]
    · simp [h]

theorem nodup_first (l : List α) : (first l).Nodup := by
  induction l with
  | nil => exact List.nodup_nil
  | cons b l ih =>
    refine List.nodup_cons.mpr ⟨fun hmem => ?_, ih.filter _⟩
    simpa using (List.mem_filter.mp hmem).2

theorem length_first (l : List α) : (first l).length = l.dedup.length := by
  refine ((List.perm_ext_iff_of_nodup (nodup_first l) (List.nodup_dedup l)).mpr fun a => ?_).length_eq
  rw [mem_first, List.mem_dedup]

/-- What a further list adds to one that is there already. -/
theorem append_first_cons_mem {out l : List α} {a : α} (h : a ∈ out) :
    out ++ (first (a :: l)).filter (· ∉ out) = out ++ (first l).filter (· ∉ out) := by
  rw [first, List.filter_cons, if_neg (by simpa using h), List.filter_filter]
  congr 1
  refine List.filter_congr fun b _ => ?_
  by_cases hb : b = a
  · simp [hb, h]
  · simp [hb]

theorem append_first_cons_not_mem {out l : List α} {a : α} (h : a ∉ out) :
    out ++ (first (a :: l)).filter (· ∉ out) = (out ++ [a]) ++ (first l).filter (· ∉ out ++ [a]) := by
  rw [first, List.filter_cons, if_pos (by simpa using h), List.filter_filter, List.append_assoc, List.singleton_append]
  congr 2
  refine List.filter_congr fun b _ => ?_
  by_cases hb : b = a
  · simp [hb]
  · simp [hb]

end Mentions
