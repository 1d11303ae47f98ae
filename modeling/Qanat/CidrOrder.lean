import Qanat.Cidr
import Mathlib.Data.Prod.Lex
import Mathlib.Tactic.Ring

namespace Qanat

/-- The number a byte string spells, first byte first. -/
def bigEndian : List UInt8 → Nat
  | [] => 0
  | x :: xs => x.toNat * 256 ^ xs.length + bigEndian xs

theorem bigEndian_lt (l : List UInt8) : bigEndian l < 256 ^ l.length := by
  induction l with
  | nil => simp [bigEndian]
  | cons x xs ih =>
    have hx : x.toNat ≤ 255 := Nat.le_of_lt_succ x.toNat_lt
    calc x.toNat * 256 ^ xs.length + bigEndian xs < 255 * 256 ^ xs.length + 256 ^ xs.length :=
          Nat.add_lt_add_of_le_of_lt (Nat.mul_le_mul_right _ hx) ih
      _ = 256 ^ (xs.length + 1) := by ring

theorem bigEndian_lt_of_head {x y : UInt8} {xs ys : List UInt8} (hlen : xs.length = ys.length)
    (h : x < y) : bigEndian (x :: xs) < bigEndian (y :: ys) := by
  have hxy : x.toNat + 1 ≤ y.toNat := UInt8.lt_iff_toNat_lt.mp h
  have hxs := bigEndian_lt xs
  calc x.toNat * 256 ^ xs.length + bigEndian xs < x.toNat * 256 ^ xs.length + 256 ^ xs.length := by omega
    _ = (x.toNat + 1) * 256 ^ ys.length := by rw [hlen]; ring
    _ ≤ y.toNat * 256 ^ ys.length := Nat.mul_le_mul_right _ hxy
    _ ≤ y.toNat * 256 ^ ys.length + bigEndian ys := Nat.le_add_right _ _

theorem memcmp_eq {xs ys : List UInt8} (hlen : xs.length = ys.length) :
    memcmp xs ys = compare (bigEndian xs) (bigEndian ys) := by
  induction xs generalizing ys with
  | nil =>
    cases ys with
    | nil => rfl
    | cons => simp at hlen
  | cons x xs ih =>
    cases ys with
    | nil => simp at hlen
    | cons y ys =>
      have hrest : xs.length = ys.length := Nat.succ.inj hlen
      unfold memcmp
      split
      next h => exact (compare_lt_iff_lt.mpr (bigEndian_lt_of_head hrest h)).symm
      next h =>
        split
        next h' => exact (compare_gt_iff_gt.mpr (bigEndian_lt_of_head hrest.symm h')).symm
        next h' =>
          have hxy : x = y := UInt8.le_antisymm (UInt8.not_lt.mp h') (UInt8.not_lt.mp h)
          subst hxy
          rw [ih hrest]
          simp only [bigEndian, hrest, Nat.compare_eq_ite_lt, Nat.add_lt_add_iff_left]

/-- What `prefix_cmp` orders by: family and network address, then length. -/
def prefixKey (p : Prefix) : Nat ×ₗ Nat :=
  match p.net with
  | .v4 a => toLex (a.toNat, p.bits)
  | .v6 b => toLex (2 ^ 32 + bigEndian b.toList, p.bits)

theorem compare_lex_ne_gt {x y i j : Nat} :
    (match compare x y with
      | .eq => compare i j
      | c => c) ≠ .gt ↔ (toLex (x, i) : Nat ×ₗ Nat) ≤ toLex (y, j) := by
  rw [Prod.Lex.toLex_le_toLex]
  rcases Nat.lt_trichotomy x y with h | h | h
  · simp [compare_lt_iff_lt.mpr h, h]
  · subst h
    simp [compare_le_iff_le]
  · simp only [compare_gt_iff_gt.mpr h]
    constructor
    · intro hne
      exact absurd rfl hne
    · intro hle
      omega

theorem prefixLe_iff (a b : Prefix) : prefixLe a b = true ↔ prefixKey a ≤ prefixKey b := by
  unfold prefixLe
  rw [decide_eq_true_iff]
  unfold prefixCmp prefixKey
  obtain ⟨na, ba, ca⟩ := a
  obtain ⟨nb, bb, cb⟩ := b
  cases na with
  | v4 x =>
    cases nb with
    | v4 y =>
      dsimp only
      rw [← compare_lex_ne_gt, Nat.compare_eq_ite_lt x.toNat]
      simp only [UInt32.lt_iff_toNat_lt]
      split
      next => rfl
      next => split <;> rfl
    | v6 y =>
      dsimp only
      have := x.toNat_lt
      simp only [ne_eq, reduceCtorEq, not_false_eq_true, true_iff, Prod.Lex.toLex_le_toLex]
      omega
  | v6 x =>
    cases nb with
    | v4 y =>
      dsimp only
      have := y.toNat_lt
      simp only [ne_eq, not_true_eq_false, false_iff, Prod.Lex.toLex_le_toLex]
      omega
    | v6 y =>
      dsimp only
      rw [← compare_lex_ne_gt, memcmp_eq (by simp)]
      have hadd (m n : Nat) : compare m n = compare (2 ^ 32 + m) (2 ^ 32 + n) := by
        simp only [Nat.compare_eq_ite_lt, Nat.add_lt_add_iff_left]
      exact hadd _ _ ▸ Iff.rfl

theorem mergeSort_pair {α : Type} (le : α → α → Bool) (a b : α) :
    [a, b].mergeSort le = if le a b then [a, b] else [b, a] := by
  rw [List.mergeSort]
  simp [List.MergeSort.Internal.splitInTwo, List.merge]

theorem sorted_prefixes (v : List Prefix) :
    (v.mergeSort prefixLe).Pairwise fun a b => prefixKey a ≤ prefixKey b := by
  have htrans : ∀ a b c, prefixLe a b = true → prefixLe b c = true → prefixLe a c = true := by
    intro a b c hab hbc
    rw [prefixLe_iff] at *
    exact le_trans hab hbc
  have htotal : ∀ a b, (prefixLe a b || prefixLe b a) = true := by
    intro a b
    rw [Bool.or_eq_true, prefixLe_iff, prefixLe_iff]
    exact le_total _ _
  exact (List.pairwise_mergeSort htrans htotal v).imp fun h => (prefixLe_iff _ _).mp h

end Qanat
