import Mathlib.Data.List.Perm.Basic
import Mathlib.Data.List.Nodup
import Mathlib.Data.List.Range
import Mathlib.Algebra.Order.Ring.Nat

namespace Heap

variable {α : Type*}

/-- A strict order in which what is not less, either way, is equivalent. -/
structure StrictWeak (r : α → α → Bool) : Prop where
  asymm : ∀ x y, r x y = true → r y x = false
  trans : ∀ x y z, r y x = false → r z y = false → r z x = false

theorem StrictWeak.irrefl {r : α → α → Bool} (h : StrictWeak r) (x : α) : r x x = false := by
  cases hx : r x x with
  | false => rfl
  | true => exact hx.symm.trans (h.asymm x x hx)

def parent (i : Nat) : Nat :=
  (i - 1) / 2

theorem parent_lt {i : Nat} (h : i ≠ 0) : parent i < i := by
  unfold parent
  omega

def swap (f : Nat → α) (i j : Nat) : Nat → α :=
  fun k => if k = i then f j else if k = j then f i else f k

/-- The entries below `n`. -/
def items (f : Nat → α) (n : Nat) : List α :=
  (List.range n).map f

theorem mem_items {f : Nat → α} {n : Nat} {x : α} : x ∈ items f n ↔ ∃ i < n, f i = x := by
  simp [items]

theorem items_succ (f : Nat → α) (n : Nat) : items f (n + 1) = items f n ++ [f n] := by
  simp [items, List.range_succ]

theorem items_congr {f g : Nat → α} {n : Nat} (h : ∀ i < n, f i = g i) : items f n = items g n :=
  List.map_congr_left fun i hi => h i (List.mem_range.mp hi)

theorem items_swap {f : Nat → α} {n i j : Nat} (hi : i < n) (hj : j < n) : (items (swap f i j) n).Perm (items f n) := by
  let g : Nat → Nat := fun k => if k = i then j else if k = j then i else k
  have hswap : swap f i j = fun k => f (g k) := by
    funext k
    unfold swap
    dsimp only [g]
    split
    next => rfl
    next =>
      split
      next => rfl
      next => rfl
  have hinv : ∀ k, g (g k) = k := by
    intro k
    dsimp only [g]
    split <;> split <;> (try split) <;> omega
  have hlt : ∀ k < n, g k < n := by
    intro k hk
    dsimp only [g]
    split
    next => exact hj
    next =>
      split
      next => exact hi
      next => exact hk
  have hperm : ((List.range n).map g).Perm (List.range n) := by
    rw [List.perm_ext_iff_of_nodup ?_ List.nodup_range]
    · intro k
      rw [List.mem_map]
      constructor
      · rintro ⟨m, hm, rfl⟩
        exact List.mem_range.mpr (hlt m (List.mem_range.mp hm))
      · intro hk
        exact ⟨g k, List.mem_range.mpr (hlt k (List.mem_range.mp hk)), hinv k⟩
    · exact List.nodup_range.map fun a b hab => by rw [← hinv a, hab, hinv]
  unfold items
  rw [hswap]
  have := hperm.map f
  rwa [List.map_map] at this

variable (r : α → α → Bool)

/-- No entry below `n` is less than its parent. -/
def Ordered (f : Nat → α) (n : Nat) : Prop :=
  ∀ i, 0 < i → i < n → r (f i) (f (parent i)) = false

section Up

/-- Move an entry up while it is less than its parent. -/
def siftUp (f : Nat → α) (i : Nat) : Nat → α :=
  if i = 0 then f
  else if r (f i) (f (parent i)) then siftUp (swap f i (parent i)) (parent i) else f
termination_by i
decreasing_by exact parent_lt ‹_›

/-- All pairs are in order but that of `i` and its parent, and the children of `i` could hang on its parent. -/
structure UpOrder (f : Nat → α) (n i : Nat) : Prop where
  off : ∀ c, 0 < c → c < n → c ≠ i → r (f c) (f (parent c)) = false
  grand : i ≠ 0 → ∀ c, 0 < c → c < n → parent c = i → r (f c) (f (parent i)) = false

variable {r} {f : Nat → α} {n i : Nat} (hr : StrictWeak r)
include hr

theorem UpOrder.move (h : UpOrder r f n i) (hne : i ≠ 0) (hlt : i < n) (hless : r (f i) (f (parent i)) = true) :
    UpOrder r (swap f i (parent i)) n (parent i) := by
  have hp := parent_lt hne
  constructor
  · intro c hc hcn hcp
    unfold swap
    by_cases hci : c = i
    · rw [if_pos hci, hci, if_neg hp.ne, if_pos rfl]
      exact hr.asymm _ _ hless
    · rw [if_neg hci, if_neg hcp]
      by_cases hpi : parent c = i
      · rw [if_pos hpi]
        exact h.grand hne c hc hcn hpi
      · rw [if_neg hpi]
        have hold := h.off c hc hcn hci
        split
        next hpp =>
          rw [hpp] at hold
          exact hr.trans _ _ _ (hr.asymm _ _ hless) hold
        next => exact hold
  · intro hp0 c hc hcn hcp
    have hpp := parent_lt hp0
    have hup := h.off (parent i) (by omega) (by omega) hp.ne
    unfold swap
    rw [if_neg (show parent (parent i) ≠ i by omega), if_neg hpp.ne]
    by_cases hci : c = i
    · rw [if_pos hci]
      exact hup
    · rw [if_neg hci, if_neg (show c ≠ parent i from fun h => by have := parent_lt (show c ≠ 0 by omega); omega)]
      have hold := h.off c hc hcn hci
      rw [hcp] at hold
      exact hr.trans _ _ _ hup hold

theorem siftUp_ordered (h : UpOrder r f n i) (hlt : i < n) : Ordered r (siftUp r f i) n := by
  induction i using Nat.strong_induction_on generalizing f with
  | _ i ih =>
    unfold siftUp
    split
    next h0 =>
      intro c hc hcn
      exact h.off c hc hcn (by omega)
    next h0 =>
      split
      next hless => exact ih _ (parent_lt h0) (h.move hr h0 hlt hless) ((parent_lt h0).trans hlt)
      next hless =>
        intro c hc hcn
        by_cases hci : c = i
        · rw [hci]
          simpa using hless
        · exact h.off c hc hcn hci

omit hr in
theorem siftUp_items (hlt : i < n) : (items (siftUp r f i) n).Perm (items f n) := by
  induction i using Nat.strong_induction_on generalizing f with
  | _ i ih =>
    unfold siftUp
    split
    next => exact .refl _
    next h0 =>
      have hp := parent_lt h0
      split
      next => exact (ih _ hp (hp.trans hlt)).trans (items_swap hlt (hp.trans hlt))
      next => exact .refl _

end Up

section Down

/-- The least of `i` and of its children at `left` and `right` that are below `n`. -/
def pick (f : Nat → α) (n i left right : Nat) : Nat :=
  let m := if left < n && r (f left) (f i) then left else i
  if right < n && r (f right) (f m) then right else m

theorem pick_cases (f : Nat → α) (n i left right : Nat) :
    pick r f n i left right = i ∨ pick r f n i left right = left ∧ left < n ∨ pick r f n i left right = right ∧ right < n := by
  unfold pick
  dsimp only
  split
  next h =>
    rw [Bool.and_eq_true, decide_eq_true_eq] at h
    split
    next h' =>
      rw [Bool.and_eq_true, decide_eq_true_eq] at h'
      exact .inr (.inr ⟨rfl, h'.1⟩)
    next => exact .inr (.inl ⟨rfl, h.1⟩)
  next =>
    split
    next h' =>
      rw [Bool.and_eq_true, decide_eq_true_eq] at h'
      exact .inr (.inr ⟨rfl, h'.1⟩)
    next => exact .inl rfl

theorem pick_child {f : Nat → α} {n i : Nat} (h : pick r f n i (2 * i + 1) (2 * i + 2) ≠ i) :
    i < pick r f n i (2 * i + 1) (2 * i + 2) ∧ pick r f n i (2 * i + 1) (2 * i + 2) < n ∧
      parent (pick r f n i (2 * i + 1) (2 * i + 2)) = i := by
  unfold parent
  rcases pick_cases r f n i (2 * i + 1) (2 * i + 2) with hp | ⟨hp, hn⟩ | ⟨hp, hn⟩
  · exact absurd hp h
  · rw [hp]
    omega
  · rw [hp]
    omega

/-- Move an entry down while a child is less. -/
def siftDown (f : Nat → α) (n i : Nat) : Nat → α :=
  if pick r f n i (2 * i + 1) (2 * i + 2) = i then f
  else siftDown (swap f i (pick r f n i (2 * i + 1) (2 * i + 2))) n (pick r f n i (2 * i + 1) (2 * i + 2))
termination_by n - i
decreasing_by
  have h := pick_child r ‹_›
  omega

/-- All pairs are in order but those of `i` and its children, and these could hang on the parent of `i`. -/
structure DownOrder (f : Nat → α) (n i : Nat) : Prop where
  off : ∀ c, 0 < c → c < n → parent c ≠ i → r (f c) (f (parent c)) = false
  grand : i ≠ 0 → ∀ c, 0 < c → c < n → parent c = i → r (f c) (f (parent i)) = false

variable {r} {f : Nat → α} {n i : Nat} (hr : StrictWeak r)
include hr

theorem pick_least : r (f i) (f (pick r f n i (2 * i + 1) (2 * i + 2))) = false ∧
    ∀ c, 0 < c → c < n → parent c = i → r (f c) (f (pick r f n i (2 * i + 1) (2 * i + 2))) = false := by
  have hirrefl := hr.irrefl
  have hchild {c : Nat} (hc : 0 < c) (hp : parent c = i) : c = 2 * i + 1 ∨ c = 2 * i + 2 := by
    unfold parent at hp
    omega
  generalize hm : (if (decide (2 * i + 1 < n) && r (f (2 * i + 1)) (f i)) = true then 2 * i + 1 else i) = m
  have hfirst : r (f i) (f m) = false ∧ (2 * i + 1 < n → r (f (2 * i + 1)) (f m) = false) := by
    split at hm
    next h =>
      rw [Bool.and_eq_true, decide_eq_true_eq] at h
      rw [← hm]
      exact ⟨hr.asymm _ _ h.2, fun _ => hirrefl _⟩
    next h =>
      rw [← hm]
      refine ⟨hirrefl _, fun hn => ?_⟩
      simpa [hn] using h
  have hpick : pick r f n i (2 * i + 1) (2 * i + 2) =
      if (decide (2 * i + 2 < n) && r (f (2 * i + 2)) (f m)) = true then 2 * i + 2 else m := by
    rw [← hm]
    rfl
  rw [hpick]
  split
  next h =>
    rw [Bool.and_eq_true, decide_eq_true_eq] at h
    have hdown := hr.asymm _ _ h.2
    refine ⟨hr.trans _ _ _ hdown hfirst.1, fun c hc hcn hp => ?_⟩
    obtain rfl | rfl := hchild hc hp
    · exact hr.trans _ _ _ hdown (hfirst.2 hcn)
    · exact hirrefl _
  next h =>
    refine ⟨hfirst.1, fun c hc hcn hp => ?_⟩
    obtain rfl | rfl := hchild hc hp
    · exact hfirst.2 hcn
    · simpa [hcn] using h

theorem DownOrder.move (h : DownOrder r f n i) (hne : pick r f n i (2 * i + 1) (2 * i + 2) ≠ i) :
    DownOrder r (swap f i (pick r f n i (2 * i + 1) (2 * i + 2))) n (pick r f n i (2 * i + 1) (2 * i + 2)) := by
  obtain ⟨hgt, hmn, hpm⟩ := pick_child r hne
  obtain ⟨hleast, hchildren⟩ := pick_least (f := f) (n := n) (i := i) hr
  generalize pick r f n i (2 * i + 1) (2 * i + 2) = m at *
  have hup : i ≠ 0 → r (f m) (f (parent i)) = false := fun h0 => h.grand h0 m (by omega) hmn hpm
  constructor
  · intro c hc hcn hcp
    have hpc := parent_lt (show c ≠ 0 by omega)
    unfold swap
    by_cases hci : c = i
    · subst hci
      rw [if_pos rfl, if_neg hpc.ne, if_neg (show parent c ≠ m by omega)]
      exact hup (by omega)
    · rw [if_neg hci]
      by_cases hcm : c = m
      · rw [if_pos hcm, hcm, if_pos hpm]
        exact hleast
      · rw [if_neg hcm]
        by_cases hpi : parent c = i
        · rw [if_pos hpi]
          exact hchildren c hc hcn hpi
        · rw [if_neg hpi, if_neg hcp]
          exact h.off c hc hcn hpi
  · intro _ c hc hcn hcp
    have hpc := parent_lt (show c ≠ 0 by omega)
    have hold := h.off c hc hcn (by omega)
    unfold swap
    rw [if_neg (show c ≠ i by omega), if_neg (show c ≠ m by omega), if_pos hpm, ← hcp]
    exact hold

theorem siftDown_ordered (h : DownOrder r f n i) : Ordered r (siftDown r f n i) n := by
  induction hk : n - i using Nat.strong_induction_on generalizing f i with
  | _ k ih =>
    unfold siftDown
    split
    next hstop =>
      intro c hc hcn
      by_cases hp : parent c = i
      · have hleast := (pick_least (f := f) (n := n) (i := i) hr).2 c hc hcn hp
        rw [hstop] at hleast
        rw [hp]
        exact hleast
      · exact h.off c hc hcn hp
    next hmove =>
      obtain ⟨hgt, hmn, -⟩ := pick_child r hmove
      exact ih _ (by omega) (h.move hr hmove) rfl

omit hr in
theorem siftDown_items (hi : i < n) : (items (siftDown r f n i) n).Perm (items f n) := by
  induction hk : n - i using Nat.strong_induction_on generalizing f i with
  | _ k ih =>
    unfold siftDown
    split
    next => exact .refl _
    next hmove =>
      obtain ⟨hgt, hmn, -⟩ := pick_child r hmove
      exact (ih _ (by omega) hmn rfl).trans (items_swap hi hmn)

/-- The root is the least entry. -/
theorem Ordered.root (h : Ordered r f n) {k : Nat} (hk : k < n) : r (f k) (f 0) = false := by
  induction k using Nat.strong_induction_on with
  | _ k ih =>
    by_cases h0 : k = 0
    · rw [h0]
      exact hr.irrefl _
    · have hp := parent_lt h0
      exact hr.trans _ _ _ (ih _ hp (hp.trans hk)) (h k (by omega) hk)

end Down

end Heap
