import Mathlib.Algebra.Order.Ring.Nat
import Mathlib.Data.List.Nodup
import Mathlib.Logic.Function.Basic

namespace Tally

variable {κ μ : Type*} [DecidableEq μ]

/-- The keys with a mark. -/
def marked (keys : List κ) (mark : κ → μ) (m : μ) : List κ :=
  keys.filter fun k => mark k = m

variable {keys : List κ} {mark : κ → μ} {k : κ} {m m' : μ}

theorem mem_marked {j : κ} : j ∈ marked keys mark m ↔ j ∈ keys ∧ mark j = m := by
  simp [marked]

theorem nodup_marked (hn : keys.Nodup) : (marked keys mark m).Nodup :=
  hn.filter _

def tally (keys : List κ) (mark : κ → μ) (m : μ) : Nat :=
  (marked keys mark m).length

theorem tally_pos (hk : k ∈ keys) (h : mark k = m) : 0 < tally keys mark m :=
  List.length_pos_of_mem (mem_marked.mpr ⟨hk, h⟩)

theorem tally_lt (hk : k ∈ keys) (h : mark k ≠ m) : tally keys mark m < keys.length :=
  List.length_filter_lt_length_iff_exists.mpr ⟨k, hk, by simpa using h⟩

variable [DecidableEq κ]

/-- A new mark that is neither the one asked for, nor put in its place. -/
theorem marked_update_other (hold : mark k ≠ m) (hnew : m' ≠ m) :
    marked keys (Function.update mark k m') m = marked keys mark m := by
  refine List.filter_congr fun j _ => ?_
  rcases eq_or_ne j k with rfl | hj
  · rw [Function.update_self, decide_eq_false hold, decide_eq_false hnew]
  · rw [Function.update_of_ne hj]

/-- One more key gets the mark. -/
theorem marked_update_self (hn : keys.Nodup) (hk : k ∈ keys) (hold : mark k ≠ m) :
    (marked keys (Function.update mark k m) m).Perm (k :: marked keys mark m) := by
  refine (List.perm_ext_iff_of_nodup (nodup_marked hn) (List.nodup_cons.mpr ⟨?_, nodup_marked hn⟩)).mpr fun j => ?_
  · exact fun hmem => hold (mem_marked.mp hmem).2
  · rw [List.mem_cons, mem_marked, mem_marked]
    rcases eq_or_ne j k with rfl | hj
    · simp [hk]
    · rw [Function.update_of_ne hj]
      simp [hj]

/-- One key loses the mark. -/
theorem marked_update_gone (hn : keys.Nodup) (hk : k ∈ keys) (hold : mark k = m) (hnew : m' ≠ m) :
    (marked keys mark m).Perm (k :: marked keys (Function.update mark k m') m) := by
  have hback := @marked_update_self κ μ _ keys (Function.update mark k m') k m _ hn hk
    (by rw [Function.update_self]; exact hnew)
  rwa [Function.update_idem, ← hold, Function.update_eq_self, hold] at hback

theorem tally_update (hn : keys.Nodup) (hk : k ∈ keys) :
    tally keys (Function.update mark k m') m + (if mark k = m then 1 else 0) =
      tally keys mark m + (if m' = m then 1 else 0) := by
  by_cases hold : mark k = m
  · by_cases hnew : m' = m
    · rw [hnew, ← hold, Function.update_eq_self]
    · rw [if_pos hold, if_neg hnew]
      exact (marked_update_gone hn hk hold hnew).length_eq.symm
  · by_cases hnew : m' = m
    · subst hnew
      rw [if_neg hold, if_pos rfl]
      exact (marked_update_self hn hk hold).length_eq
    · rw [if_neg hold, if_neg hnew, tally, marked_update_other hold hnew]
      rfl

end Tally
