import Mathlib.Data.List.Count

namespace Allowance

variable {α β : Type*} [DecidableEq α] (rank : β → Nat) (bound : Nat) (step : Nat → α)

/-- What is left of the allowance of the process with number `i`; one that has not started still
has all of it. -/
def left (l : List β) (i : Nat) : Nat :=
  (l[i]?.map rank).getD bound

/-- Every move made so far has been paid for. -/
def Paid (acts : List α) (l : List β) : Prop :=
  ∀ i, acts.count (step i) + left rank bound l i ≤ bound

variable {rank bound step}

theorem Paid.nil : Paid rank bound step [] [] := by
  intro i
  simp [left]

theorem Paid.count_le {acts : List α} {l : List β} (h : Paid rank bound step acts l) (i : Nat) :
    acts.count (step i) ≤ bound := by
  have := h i
  omega

theorem count_other {acts : List α} {a : α} (ha : ∀ i, a ≠ step i) (i : Nat) :
    (acts ++ [a]).count (step i) = acts.count (step i) := by
  simp [List.count_append, ha i]

theorem Paid.other {acts : List α} {l : List β} (h : Paid rank bound step acts l) {a : α}
    (ha : ∀ i, a ≠ step i) : Paid rank bound step (acts ++ [a]) l := by
  intro i
  rw [count_other ha]
  exact h i

theorem Paid.start {acts : List α} {l : List β} (h : Paid rank bound step acts l) {a : α}
    (ha : ∀ i, a ≠ step i) {b : β} (hb : rank b ≤ bound) :
    Paid rank bound step (acts ++ [a]) (l ++ [b]) := by
  intro i
  have := h i
  rw [count_other ha]
  unfold left at this ⊢
  rw [List.getElem?_append]
  split
  next => exact this
  next hge =>
    rw [List.getElem?_eq_none (by omega)] at this
    cases hi : [b][i - l.length]? with
    | none => exact this
    | some x =>
      have hx : x = b := by
        obtain ⟨hlt, heq⟩ := List.getElem?_eq_some_iff.mp hi
        rw [List.getElem_singleton] at heq
        exact heq.symm
      subst hx
      simp only [Option.map_none, Option.getD_none, Option.map_some, Option.getD_some] at this ⊢
      omega

theorem Paid.move {acts : List α} {l : List β} (h : Paid rank bound step acts l)
    (hmove : Function.Injective step) {i : Nat} {a b : β} (hi : l[i]? = some a)
    (hrank : rank b < rank a) : Paid rank bound step (acts ++ [step i]) (l.set i b) := by
  intro j
  have := h j
  rw [List.count_append, List.count_singleton]
  unfold left at this ⊢
  by_cases hj : j = i
  · subst hj
    obtain ⟨hlt, -⟩ := List.getElem?_eq_some_iff.mp hi
    rw [List.getElem?_set_self hlt]
    simp only [hi, Option.map_some, Option.getD_some, beq_self_eq_true, if_true] at this ⊢
    omega
  · rw [List.getElem?_set_ne (Ne.symm hj), beq_false_of_ne (fun he => hj (hmove he).symm)]
    simpa using this

end Allowance
