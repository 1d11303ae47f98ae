import Mathlib.Algebra.BigOperators.Group.List.Basic
import Mathlib.Algebra.Order.BigOperators.Group.List
import Mathlib.Data.List.Basic
import Mathlib.Algebra.Order.Group.Nat
import Mathlib.Algebra.Order.Ring.Nat

namespace ListSum

variable {β : Type*} (f : β → Nat)

/-- Replacing one entry changes a sum by what the entry contributes. -/
theorem sum_map_set {l : List β} {i : Nat} {a : β} (b : β) (h : l[i]? = some a) :
    ((l.set i b).map f).sum + f a = (l.map f).sum + f b := by
  induction l generalizing i with
  | nil => simp at h
  | cons x l ih =>
    cases i with
    | zero =>
      have hx : x = a := by simpa using h
      subst hx
      simp only [List.set_cons_zero, List.map_cons, List.sum_cons]
      omega
    | succ i =>
      have := ih (by simpa using h)
      simp only [List.set_cons_succ, List.map_cons, List.sum_cons]
      omega

theorem sum_map_append_one (l : List β) (b : β) :
    ((l ++ [b]).map f).sum = (l.map f).sum + f b := by
  simp

theorem le_sum_map {l : List β} {i : Nat} {a : β} (h : l[i]? = some a) : f a ≤ (l.map f).sum :=
  List.le_sum_of_mem (List.mem_map_of_mem (List.mem_of_getElem? h))

/-- A sum below another one stays below it by the gap at any one entry. -/
theorem sum_map_gap {f g : β → Nat} {l : List β} (hle : ∀ x ∈ l, f x ≤ g x) {i : Nat} {a : β}
    (h : l[i]? = some a) : (l.map f).sum + g a ≤ (l.map g).sum + f a := by
  induction l generalizing i with
  | nil => simp at h
  | cons x l ih =>
    have htail : ∀ y ∈ l, f y ≤ g y := fun y hy => hle y (List.mem_cons_of_mem _ hy)
    have hrest : (l.map f).sum ≤ (l.map g).sum := List.sum_le_sum htail
    cases i with
    | zero =>
      have hx : x = a := by simpa using h
      subst hx
      simp only [List.map_cons, List.sum_cons]
      omega
    | succ i =>
      have := ih htail (by simpa using h)
      have := hle x List.mem_cons_self
      simp only [List.map_cons, List.sum_cons]
      omega

theorem getElem?_set_cases {l : List β} {i j : Nat} {b x : β} (h : (l.set i b)[j]? = some x) :
    (j = i ∧ x = b) ∨ (j ≠ i ∧ l[j]? = some x) := by
  by_cases hij : j = i
  · subst hij
    rw [List.getElem?_set_self'] at h
    refine Or.inl ⟨rfl, ?_⟩
    cases hl : l[j]? with
    | none => simp [hl] at h
    | some y => simpa [hl] using h.symm
  · rw [List.getElem?_set_ne (Ne.symm hij)] at h
    exact Or.inr ⟨hij, h⟩

theorem getElem?_append_one_cases {l : List β} {i : Nat} {b x : β} (h : (l ++ [b])[i]? = some x) :
    l[i]? = some x ∨ (i = l.length ∧ x = b) := by
  rw [List.getElem?_append] at h
  split at h
  next => exact Or.inl h
  next =>
    obtain ⟨hlt, heq⟩ := List.getElem?_eq_some_iff.mp h
    simp only [List.length_singleton] at hlt
    refine Or.inr ⟨by omega, ?_⟩
    rw [List.getElem_singleton] at heq
    exact heq.symm

/-- Replacing an entry by one with the same image changes nothing in the images. -/
theorem map_set_of_eq {γ : Type*} (g : β → γ) {l : List β} {i : Nat} {a b : β} (h : l[i]? = some a)
    (hab : g b = g a) : (l.set i b).map g = l.map g := by
  apply List.ext_getElem?
  intro j
  rw [List.getElem?_map, List.getElem?_map]
  by_cases hj : j = i
  · subst hj
    obtain ⟨hlt, _⟩ := List.getElem?_eq_some_iff.mp h
    rw [List.getElem?_set_self hlt, h, Option.map_some, Option.map_some, hab]
  · rw [List.getElem?_set_ne (Ne.symm hj)]

/-- Replacing one entry trades what it contributes to a filtered list. -/
theorem filterMap_set_perm {γ : Type*} (g : β → Option γ) {l : List β} {i : Nat} {a : β} (b : β)
    (h : l[i]? = some a) :
    ((l.set i b).filterMap g ++ (g a).toList).Perm (l.filterMap g ++ (g b).toList) := by
  induction l generalizing i with
  | nil => simp at h
  | cons x l ih =>
    have hcons : ∀ (y : β) (m : List β), (y :: m).filterMap g = (g y).toList ++ m.filterMap g := by
      intro y m
      rw [List.filterMap_cons]
      cases g y <;> rfl
    cases i with
    | zero =>
      have hx : x = a := by simpa using h
      subst hx
      rw [List.set_cons_zero, hcons, hcons, List.append_assoc]
      have hback : ((g b).toList ++ (l.filterMap g ++ (g x).toList)).Perm
          ((l.filterMap g ++ (g x).toList) ++ (g b).toList) := List.perm_append_comm
      exact hback.trans (List.Perm.append_right _ List.perm_append_comm)
    | succ i =>
      have := ih (by simpa using h)
      rw [List.set_cons_succ, hcons, hcons, List.append_assoc, List.append_assoc]
      exact List.Perm.append_left _ this

theorem nodup_filterMap {γ : Type*} {g : β → Option γ} {l : List β}
    (h : ∀ (i j : Nat) (x y : β) (v : γ), l[i]? = some x → l[j]? = some y → g x = some v →
      g y = some v → i = j) : (l.filterMap g).Nodup := by
  induction l with
  | nil => exact List.nodup_nil
  | cons x l ih =>
    have ih := ih fun i j y z v hi hj hy hz => by
      have := h (i + 1) (j + 1) y z v (by simpa using hi) (by simpa using hj) hy hz
      omega
    rw [List.filterMap_cons]
    split
    next => exact ih
    next v hv =>
      refine List.nodup_cons.mpr ⟨?_, ih⟩
      intro hmem
      obtain ⟨y, hy, hyv⟩ := List.mem_filterMap.mp hmem
      obtain ⟨j, hj⟩ := List.mem_iff_getElem?.mp hy
      have := h 0 (j + 1) x y v rfl (by simpa using hj) hv hyv
      omega

section Count

variable {p q : β → Bool} {l : List β}

/-- Two kinds that no entry is both of are counted one by one. -/
theorem countP_add_of_disjoint (h : ∀ x ∈ l, p x = true → q x = false) :
    l.countP p + l.countP q = l.countP fun x => p x || q x := by
  induction l with
  | nil => rfl
  | cons x l ih =>
    have htail := ih fun y hy => h y (List.mem_cons_of_mem _ hy)
    have hx := h x List.mem_cons_self
    rw [List.countP_cons, List.countP_cons, List.countP_cons, ← htail]
    cases hp : p x with
    | true =>
      rw [hx hp]
      simp
      omega
    | false => simp [Nat.add_assoc]

/-- A kind inside another one has as many entries only where it is all of it. -/
theorem countP_eq_iff_of_imp (h : ∀ x ∈ l, p x = true → q x = true) :
    l.countP p = l.countP q ↔ ∀ x ∈ l, q x = true → p x = true := by
  induction l with
  | nil => simp
  | cons x l ih =>
    have htail : ∀ y ∈ l, p y = true → q y = true := fun y hy => h y (List.mem_cons_of_mem _ hy)
    have hle := List.countP_mono_left htail
    have hx := h x List.mem_cons_self
    rw [List.countP_cons, List.countP_cons, List.forall_mem_cons, ← ih htail]
    cases hp : p x with
    | true => simp [hx hp]
    | false =>
      cases hq : q x with
      | true =>
        simp
        omega
      | false => simp

end Count

end ListSum
