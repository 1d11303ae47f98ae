import Qanat.General.Heap
import Mathlib.Logic.Function.Basic
import Mathlib.Algebra.Order.Ring.Nat

namespace Qanat

/-- `qn_topk` over the slots of its storage. -/
structure TopK (α : Type) where
  slot : Nat → α
  cap : Nat
  n : Nat
  offered : UInt64
  evicted : UInt64

section Model

variable {α : Type} (cmp : α → α → Int)

def worse (x y : α) : Bool :=
  cmp x y < 0

/-- `qn_topk_attach`; `none` is its `false`. -/
def topkAttach (slot : Nat → α) (cap : Nat) : Option (TopK α) :=
  if cap = 0 then none else some ⟨slot, cap, 0, 0, 0⟩

/-- `sift_up`. -/
def siftUp (slot : Nat → α) (i : Nat) : Nat → α :=
  Heap.siftUp (worse cmp) slot i

/-- `sift_down` on `n` slots, with the children of a slot as 32-bit words; `none` is a loop of more rounds than fuel. -/
def siftDown (n : Nat) : Nat → (Nat → α) → Nat → Option (Nat → α)
  | 0, _, _ => none
  | fuel + 1, slot, i =>
    let l := (2 * i + 1) % 2 ^ 32
    let r := (l + 1) % 2 ^ 32
    let m := Heap.pick (worse cmp) slot n i l r
    if m = i then some slot else siftDown n fuel (Heap.swap slot i m) m

/-- `qn_topk_offer`, with whether the item was kept. -/
def topkOffer (fuel : Nat) (h : TopK α) (item : α) : Option (TopK α × Bool) :=
  let h := { h with offered := h.offered + 1 }
  if h.n < h.cap then
    some ({ h with slot := siftUp cmp (Function.update h.slot h.n item) h.n, n := h.n + 1 }, true)
  else if cmp item (h.slot 0) ≤ 0 then some (h, false)
  else
    (siftDown cmp h.n fuel (Function.update h.slot 0 item) 0).map fun slot =>
      ({ h with slot := slot, evicted := h.evicted + 1 }, true)

/-- The items are offered one after the other. -/
def topkOffers (fuel : Nat) (h : TopK α) : List α → Option (TopK α × List Bool)
  | [] => some (h, [])
  | item :: items =>
    (topkOffer cmp fuel h item).bind fun p => (topkOffers fuel p.1 items).map fun q => (q.1, p.2 :: q.2)

/-- The loop of `qn_topk_drain` on `n` slots, with what it writes. -/
def drainSlots (fuel : Nat) : Nat → (Nat → α) → Option (List α)
  | 0, _ => some []
  | n + 1, slot =>
    let next := if n = 0 then some slot else siftDown cmp n fuel (Function.update slot 0 (slot n)) 0
    next.bind fun slot' => (drainSlots fuel n slot').map (· ++ [slot 0])

/-- `qn_topk_drain`: the items written, and the heap that is left. -/
def topkDrain (fuel : Nat) (h : TopK α) : Option (List α × TopK α) :=
  (drainSlots cmp fuel h.n h.slot).map fun out => (out, { h with n := 0 })

end Model

/-- A comparator that is a total preorder. -/
structure PreorderCmp {α : Type} (cmp : α → α → Int) : Prop where
  flip : ∀ x y, cmp x y < 0 ↔ 0 < cmp y x
  trans : ∀ x y z, cmp x y ≤ 0 → cmp y z ≤ 0 → cmp x z ≤ 0

/-- What `qn_topk_offer` and `qn_topk_drain` make of a list of items. -/
structure KeepsBest {α : Type} (cmp : α → α → Int) (cap : Nat) (items : List α) (h : TopK α) (flags : List Bool)
    (out : List α) : Prop where
  length : out.length = min cap items.length
  sorted : out.Pairwise fun x y => 0 ≤ cmp x y
  best : ∃ discarded, (out ++ discarded).Perm items ∧ ∀ d ∈ discarded, ∀ k ∈ out, ¬ 0 < cmp d k
  offered : h.offered = UInt64.ofNat items.length
  evicted : h.evicted = UInt64.ofNat ((flags.drop cap).count true)

/-- For every comparator and every list of so many items, offering them and draining returns the best ones. -/
def SelectsBest (cap count : Nat) : Prop :=
  ∀ (α : Type) (cmp : α → α → Int), PreorderCmp cmp → ∀ (slot : Nat → α) (items : List α), items.length = count →
    ∃ fuel h₀ h flags out h', topkAttach slot cap = some h₀ ∧ topkOffers cmp fuel h₀ items = some (h, flags) ∧
      topkDrain cmp fuel h = some (out, h') ∧ KeepsBest cmp cap items h flags out

section Order

variable {α : Type} {cmp : α → α → Int} (hc : PreorderCmp cmp)
include hc

theorem worse_eq_false {x y : α} : worse cmp x y = false ↔ cmp y x ≤ 0 := by
  have := hc.flip x y
  unfold worse
  rw [decide_eq_false_iff_not, this]
  omega

theorem PreorderCmp.strictWeak : Heap.StrictWeak (worse cmp) where
  asymm x y h := by
    rw [worse_eq_false hc]
    exact Int.le_of_lt (decide_eq_true_eq.mp h)
  trans x y z hxy hyz := by
    rw [worse_eq_false hc] at *
    exact hc.trans x y z hxy hyz

theorem not_better_iff {d k : α} : ¬ 0 < cmp d k ↔ worse cmp k d = false := by
  rw [worse_eq_false hc]
  omega

end Order

end Qanat
