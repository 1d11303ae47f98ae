import Qanat.General.Block
import Mathlib.Data.Set.Basic

namespace Dyadic

/-- A block of a power of two that starts at a multiple of its size. -/
structure Cell where
  lo : Nat
  exp : Nat
  aligned : 2 ^ exp ∣ lo

namespace Cell

def size (c : Cell) : Nat :=
  2 ^ c.exp

def Mem (c : Cell) (x : Nat) : Prop :=
  c.lo ≤ x ∧ x < c.lo + c.size

def Within (c d : Cell) : Prop :=
  d.lo ≤ c.lo ∧ c.lo + c.size ≤ d.lo + d.size

/-- The two halves of a cell, in order. -/
def Siblings (c d : Cell) : Prop :=
  c.exp = d.exp ∧ c.lo + c.size = d.lo ∧ 2 ^ (c.exp + 1) ∣ c.lo

theorem size_pos (c : Cell) : 0 < c.size :=
  Nat.pow_pos (by decide)

theorem mem_lo (c : Cell) : c.Mem c.lo :=
  ⟨Nat.le_refl _, Nat.lt_add_of_pos_right c.size_pos⟩

theorem Within.mem {c d : Cell} (h : c.Within d) {x : Nat} (hx : c.Mem x) : d.Mem x := by
  obtain ⟨h₁, h₂⟩ := h
  obtain ⟨hx₁, hx₂⟩ := hx
  constructor <;> omega

theorem Within.refl (c : Cell) : c.Within c :=
  ⟨Nat.le_refl _, Nat.le_refl _⟩

theorem Within.trans {c d e : Cell} (h : c.Within d) (h' : d.Within e) : c.Within e :=
  ⟨Nat.le_trans h'.1 h.1, Nat.le_trans h.2 h'.2⟩

theorem Within.exp_le {c d : Cell} (h : c.Within d) : c.exp ≤ d.exp := by
  by_contra hlt
  have hpow : 2 ^ d.exp < 2 ^ c.exp := Nat.pow_lt_pow_right (by decide) (by omega)
  obtain ⟨h₁, h₂⟩ := h
  unfold size at h₂
  omega

@[ext] theorem ext {c d : Cell} (hlo : c.lo = d.lo) (hexp : c.exp = d.exp) : c = d := by
  obtain ⟨lo, exp, _⟩ := c
  obtain ⟨lo', exp', _⟩ := d
  obtain rfl : lo = lo' := hlo
  obtain rfl : exp = exp' := hexp
  rfl

theorem Within.antisymm {c d : Cell} (h : c.Within d) (h' : d.Within c) : c = d :=
  ext (Nat.le_antisymm h'.1 h.1) (Nat.le_antisymm h.exp_le h'.exp_le)

/-- Two cells with a point in common lie one in the other. -/
theorem within_of_meet {c d : Cell} (hle : c.exp ≤ d.exp) {x : Nat} (hc : c.Mem x) (hd : d.Mem x) : c.Within d := by
  have hdvd : c.size ∣ d.size := Nat.pow_dvd_pow 2 hle
  have hdlo : c.size ∣ d.lo := Nat.dvd_trans hdvd d.aligned
  obtain ⟨hc₁, hc₂⟩ := hc
  obtain ⟨hd₁, hd₂⟩ := hd
  have hend : c.lo + c.size ≤ d.lo + d.size := Block.end_le hdlo hdvd c.aligned (by omega)
  refine ⟨?_, hend⟩
  by_contra hlt
  have hbelow : c.lo + c.size ≤ 0 + d.lo := Block.end_le (Nat.dvd_zero _) hdlo c.aligned (by omega)
  omega

/-- The lower half of a cell. -/
def low (c : Cell) (k : Nat) (h : c.exp = k + 1) : Cell :=
  ⟨c.lo, k, Nat.dvd_trans (Nat.pow_dvd_pow 2 (by omega)) c.aligned⟩

/-- The upper half of a cell. -/
def high (c : Cell) (k : Nat) (h : c.exp = k + 1) : Cell :=
  ⟨c.lo + 2 ^ k, k, Nat.dvd_add (Nat.dvd_trans (Nat.pow_dvd_pow 2 (by omega)) c.aligned) (Nat.dvd_refl _)⟩

section Halves

variable {c : Cell} {k : Nat} (h : c.exp = k + 1)
include h

theorem size_eq_double : c.size = 2 ^ k + 2 ^ k := by
  unfold size
  rw [h, Nat.pow_succ]
  omega

theorem low_within : (c.low k h).Within c := by
  have hsize := size_eq_double h
  refine ⟨Nat.le_refl _, ?_⟩
  change c.lo + 2 ^ k ≤ c.lo + c.size
  omega

theorem high_within : (c.high k h).Within c := by
  have hsize := size_eq_double h
  refine ⟨Nat.le_add_right _ _, ?_⟩
  change c.lo + 2 ^ k + 2 ^ k ≤ c.lo + c.size
  omega

theorem halves_siblings : (c.low k h).Siblings (c.high k h) := by
  refine ⟨rfl, rfl, ?_⟩
  have := c.aligned
  rwa [h] at this

/-- A cell that holds one half of `c` but not `c` is that half. -/
theorem eq_of_half_within {d half : Cell} (hhalf : half.exp = k) (hin : half.Within c) (hd : half.Within d)
    (hno : ¬ c.Within d) : d = half := by
  have hle := hd.exp_le
  have hlt : d.exp ≤ k := by
    by_contra hgt
    exact hno (within_of_meet (by omega) (hin.mem half.mem_lo) (hd.mem half.mem_lo))
  exact Within.antisymm (within_of_meet (by omega) (hd.mem half.mem_lo) half.mem_lo) hd

end Halves

end Cell

/-- A point that some cell of the family holds. -/
def Covered (F : Set Cell) (x : Nat) : Prop :=
  ∃ c ∈ F, c.Mem x

/-- A family of disjoint cells no two of which are the halves of one. -/
structure Reduced (F : Set Cell) : Prop where
  apart : ∀ c ∈ F, ∀ d ∈ F, ∀ x, c.Mem x → d.Mem x → c = d
  unmerged : ∀ c ∈ F, ∀ d ∈ F, ¬ c.Siblings d

/-- A cell whose points are all covered lies in one cell of a reduced family. -/
theorem Reduced.within {F : Set Cell} (hF : Reduced F) {b : Cell} (hb : ∀ x, b.Mem x → Covered F x) :
    ∃ c ∈ F, b.Within c := by
  obtain ⟨k, hk⟩ : ∃ k, b.exp = k := ⟨_, rfl⟩
  induction k generalizing b with
  | zero =>
    obtain ⟨c, hc, hx⟩ := hb b.lo b.mem_lo
    exact ⟨c, hc, Cell.within_of_meet (by omega) b.mem_lo hx⟩
  | succ k ih =>
    by_contra hnone
    push Not at hnone
    obtain ⟨c, hc, hlow⟩ := ih (fun x hx => hb x ((Cell.low_within hk).mem hx)) rfl
    obtain ⟨d, hd, hhigh⟩ := ih (fun x hx => hb x ((Cell.high_within hk).mem hx)) rfl
    have hce := Cell.eq_of_half_within hk rfl (Cell.low_within hk) hlow (hnone c hc)
    have hde := Cell.eq_of_half_within hk rfl (Cell.high_within hk) hhigh (hnone d hd)
    subst hce
    subst hde
    exact hF.unmerged _ hc _ hd (Cell.halves_siblings hk)

theorem Reduced.mem_of_covered {F G : Set Cell} (hF : Reduced F) (hG : Reduced G)
    (h : ∀ x, Covered F x ↔ Covered G x) {c : Cell} (hc : c ∈ F) : c ∈ G := by
  obtain ⟨d, hd, hcd⟩ := hG.within fun x hx => (h x).mp ⟨c, hc, hx⟩
  obtain ⟨e, he, hde⟩ := hF.within fun x hx => (h x).mpr ⟨d, hd, hx⟩
  have hce : c = e := hF.apart c hc e he c.lo c.mem_lo (hde.mem (hcd.mem c.mem_lo))
  subst hce
  rwa [Cell.Within.antisymm hcd hde]

/-- A reduced family is determined by the points it covers. -/
theorem Reduced.unique {F G : Set Cell} (hF : Reduced F) (hG : Reduced G)
    (h : ∀ x, Covered F x ↔ Covered G x) : F = G := by
  ext c
  exact ⟨hF.mem_of_covered hG h, hG.mem_of_covered hF fun x => (h x).symm⟩

end Dyadic
