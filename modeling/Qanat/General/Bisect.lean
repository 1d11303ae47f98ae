import Mathlib.Order.Defs.LinearOrder

namespace Bisect

/-- Search `[lo, hi)` for the first index that passes a test which may itself fail. -/
def search (test : Nat → Option Bool) : Nat → Nat → Nat → Option Nat
  | 0, lo, _ => some lo
  | fuel + 1, lo, hi =>
    if lo < hi then
      match test (lo + (hi - lo) / 2) with
      | none => none
      | some true => search test fuel lo (lo + (hi - lo) / 2)
      | some false => search test fuel (lo + (hi - lo) / 2 + 1) hi
    else some lo

/-- On a test that never goes back to failing, the search ends at its first success. -/
theorem search_spec (test : Nat → Option Bool) (good : Nat → Prop) [DecidablePred good]
    (mono : ∀ i j, i ≤ j → good i → good j) {fuel lo hi : Nat} (hf : hi ≤ lo + fuel) (hle : lo ≤ hi)
    (htest : ∀ i, lo ≤ i → i < hi → test i = some (decide (good i))) :
    ∃ k, search test fuel lo hi = some k ∧ lo ≤ k ∧ k ≤ hi ∧
      (∀ i, lo ≤ i → i < k → ¬good i) ∧ (k < hi → good k) := by
  induction fuel generalizing lo hi with
  | zero => exact ⟨lo, rfl, Nat.le_refl _, hle, by omega, by omega⟩
  | succ fuel ih =>
    unfold search
    split
    next hlt =>
      have hmid := htest (lo + (hi - lo) / 2) (by omega) (by omega)
      rw [hmid]
      by_cases hg : good (lo + (hi - lo) / 2)
      · simp only [hg, decide_true]
        obtain ⟨k, hk, hlo, hhi, hbelow, hat⟩ := @ih lo (lo + (hi - lo) / 2) (by omega) (by omega)
          (fun i h₁ h₂ => htest i h₁ (by omega))
        refine ⟨k, hk, hlo, by omega, hbelow, ?_⟩
        intro _
        rcases Nat.lt_or_ge k (lo + (hi - lo) / 2) with h | h
        · exact hat h
        · exact mono _ _ h hg
      · simp only [hg, decide_false]
        obtain ⟨k, hk, hlo, hhi, hbelow, hat⟩ := @ih (lo + (hi - lo) / 2 + 1) hi (by omega) (by omega)
          (fun i h₁ h₂ => htest i (by omega) h₂)
        refine ⟨k, hk, by omega, hhi, ?_, hat⟩
        intro i h₁ h₂
        rcases Nat.lt_or_ge (lo + (hi - lo) / 2) i with h | h
        · exact hbelow i (by omega) h₂
        · exact fun hi => hg (mono _ _ h hi)
    next hge => exact ⟨lo, rfl, Nat.le_refl _, hle, by omega, by omega⟩

end Bisect
