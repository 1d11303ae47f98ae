import Qanat.BanditQuota
import Mathlib.Data.Nat.ModEq
import Mathlib.Data.Nat.GCD.Basic

namespace Qanat

theorem gcd32_eq (a b : Nat) : gcd32 a b = Nat.gcd a b := by
  induction b using Nat.strong_induction_on generalizing a with
  | _ b ih =>
    unfold gcd32
    split
    next h => rw [h, Nat.gcd_zero_right]
    next h => rw [ih _ (Nat.mod_lt _ (Nat.pos_of_ne_zero h)), Nat.gcd_comm, ← Nat.gcd_rec, Nat.gcd_comm]

/-- Counting up and wrapping to one meets a multiplier coprime to the span. -/
theorem coprimeFrom_coprime {span : Nat} (hs : 2 ≤ span) (fuel : Nat) {a : Nat} (ha : a < span)
    (h : a = 1 ∨ span ≤ a + fuel) : Nat.Coprime (coprimeFrom span fuel a) span := by
  induction fuel generalizing a with
  | zero =>
    have : a = 1 := by omega
    rw [coprimeFrom, this]
    exact Nat.gcd_one_left _
  | succ fuel ih =>
    unfold coprimeFrom
    split
    next hne =>
      have h1 : a ≠ 1 := fun h1 => hne (by rw [gcd32_eq, h1, Nat.gcd_one_left])
      split
      next => exact ih (by omega) (Or.inl rfl)
      next => exact ih (by omega) (Or.inr (by omega))
    next heq =>
      rw [gcd32_eq, not_not] at heq
      exact heq

theorem blockPerm_lt {c span : Nat} (key : UInt64) (hc : c < span) : blockPerm c span key < span := by
  unfold blockPerm
  split
  next => omega
  next => exact Nat.mod_lt _ (by omega)

/-- A coprime affine map permutes the offsets of a block. -/
theorem blockPerm_injective {c c' span : Nat} (key : UInt64) (hc : c < span) (hc' : c' < span)
    (h : blockPerm c span key = blockPerm c' span key) : c = c' := by
  unfold blockPerm at h
  split at h
  next => omega
  next hs =>
    dsimp only at h
    generalize hm : (mix64 (key ^^^ 0xA24BAED4963EE407)).toNat % span = m at h
    have hlt : m < span := hm ▸ Nat.mod_lt _ (by omega)
    have hco := coprimeFrom_coprime (show 2 ≤ span by omega) span
      (a := if m = 0 then 1 else m) (by split <;> omega) (by split <;> omega)
    have hmod := Nat.ModEq.cancel_left_of_coprime (Nat.coprime_comm.mp hco)
      (Nat.ModEq.add_right_cancel' _ h)
    rwa [Nat.ModEq, Nat.mod_eq_of_lt hc, Nat.mod_eq_of_lt hc'] at hmod

/-- The index that offset counter `c` of block `blk` stands for. -/
def slotIndex (t : Bandit) (blk c : Nat) : Nat :=
  blk * t.span + blockPerm c (blockSpan t blk) (blockKey t blk)

def blockQuota (t : Bandit) (blk : Nat) : Nat :=
  quotaPrefix t (blk + 1) - quotaPrefix t blk

section Slots

variable {t : Bandit} (ht : t.Shaped)
include ht

theorem slotIndex_lt {blk c : Nat} (hb : blk < t.n) (hc : c < blockSpan t blk) :
    slotIndex t blk c < t.total := by
  have hoff := blockPerm_lt (blockKey t blk) hc
  have hcap := ht.capacity_succ hb
  have hle := ht.capacity_room (k := blk + 1) (by omega)
  rw [ht.capacity_of_lt hb] at hcap
  unfold slotIndex
  omega

theorem slotIndex_div {blk c : Nat} (hc : c < blockSpan t blk) : slotIndex t blk c / t.span = blk := by
  have hoff := blockPerm_lt (blockKey t blk) hc
  have hle := Bandit.Shaped.blockSpan_le (t := t) blk
  rw [slotIndex, Nat.add_comm, Nat.add_mul_div_right _ _ ht.span_pos, Nat.div_eq_of_lt (by omega),
    Nat.zero_add]

theorem slotIndex_injective {blk blk' c c' : Nat} (hc : c < blockSpan t blk)
    (hc' : c' < blockSpan t blk') (h : slotIndex t blk c = slotIndex t blk' c') :
    blk = blk' ∧ c = c' := by
  have hb : blk = blk' := by rw [← slotIndex_div ht hc, h, slotIndex_div ht hc']
  subst hb
  exact ⟨rfl, blockPerm_injective _ hc hc' (Nat.add_left_cancel h)⟩

end Slots

section Explore

variable {t : Bandit} (ht : t.Shaped) (hE : t.exploreTotal ≤ t.total)
include ht hE

theorem blockQuota_le {blk : Nat} (hb : blk < t.n) : blockQuota t blk ≤ blockSpan t blk := by
  have := quotaPrefix_step ht hE hb
  unfold blockQuota
  omega

/-- The binary search of `exact_explore_next` lands in the block that owns the mapped step. -/
theorem exactExploreNext_spec {step : Nat} (hm : permApply t.exploreOrder step < t.exploreTotal) :
    ∃ blk c, blk < t.n ∧ c < blockQuota t blk ∧
      quotaPrefix t blk + c = permApply t.exploreOrder step ∧
      exactExploreNext t step = some (slotIndex t blk c) := by
  generalize hmap : permApply t.exploreOrder step = mapped at hm ⊢
  obtain ⟨k, hk, _, hle, hbelow, hat⟩ := Bisect.search_spec
    (fun mid => (exploreQuotaPrefix t (mid + 1)).map (decide <| mapped < ·))
    (fun i => mapped < quotaPrefix t (min (i + 1) t.n))
    (fun i j hij hi => Nat.lt_of_lt_of_le hi (quotaPrefix_mono ht hE (by omega) (by omega)))
    (show t.n ≤ 0 + t.n by omega) (Nat.zero_le _)
    (fun i _ hi => by rw [exploreQuotaPrefix_eq ht hE (by omega), Nat.min_eq_left (by omega)]; rfl)
  have hpos := ht.n_pos
  have hkn : k < t.n := by
    rcases Nat.lt_or_ge k t.n with h | h
    · exact h
    · have := hbelow (t.n - 1) (by omega) (by omega)
      rw [show min (t.n - 1 + 1) t.n = t.n by omega, quotaPrefix_n ht hE] at this
      exact absurd hm this
  have hupper := hat hkn
  rw [Nat.min_eq_left (by omega)] at hupper
  have hlower : quotaPrefix t k ≤ mapped := by
    cases k with
    | zero => simp [quotaPrefix, blockCapacityPrefix]
    | succ k =>
      have := hbelow k (by omega) (by omega)
      rw [Nat.min_eq_left (by omega)] at this
      omega
  have hquota := quotaPrefix_step ht hE hkn
  refine ⟨k, mapped - quotaPrefix t k, hkn, by unfold blockQuota; omega, by omega, ?_⟩
  unfold exactExploreNext
  rw [hmap]
  dsimp only
  rw [hk]
  dsimp only
  rw [if_neg (by omega), exploreQuotaPrefix_eq ht hE (by omega)]
  dsimp only
  rw [if_neg (by omega)]
  rfl

end Explore

/-- A bandit before its first draw: every block counter stands at the block's exploration quota. -/
structure Bandit.Ready (t : Bandit) : Prop where
  shaped : t.Shaped
  explore_le : t.exploreTotal ≤ t.total
  drawn : ∀ k < t.n, (t.b k).drawn.toNat = blockQuota t k
  scores : ∀ k < t.n, (t.b k).alpha = 1 ∧ (t.b k).beta = 1
  issued : t.issued = 0
  inexact : t.exactExplore = false → t.exploreTotal = 0
  blockOrder : ∃ seed, t.blockOrder = permInit t.n seed
  exploreOrder : t.exactExplore = true → ∃ seed, t.exploreOrder = permInit t.exploreTotal seed

theorem quotaPrefix_inexact {t : Bandit} (ht : t.Shaped) (h : t.exploreTotal = 0) (k : Nat) :
    quotaPrefix t k = 0 := by
  have := ht.n_pos
  rw [quotaPrefix, if_neg (by omega), h, Nat.zero_mul, Nat.zero_div]

theorem banditInit_ready {total requested explore : Nat} {seed : UInt64} {t : Bandit}
    (hr : requested < 2 ^ 32) (ht : total < 2 ^ 64)
    (h : banditInit total requested explore seed = some t) : t.Ready := by
  have hshaped := banditInit_shaped hr ht h
  unfold banditInit at h
  split at h
  next => simp at h
  next =>
    cases Option.some.inj h
    refine ⟨hshaped, Nat.zero_le _, ?_, fun _ _ => ⟨rfl, rfl⟩, rfl, fun _ => rfl, ⟨_, rfl⟩, fun h => by simp at h⟩
    intro k _
    rw [blockQuota, quotaPrefix_inexact hshaped rfl, quotaPrefix_inexact hshaped rfl]
    rfl

theorem banditInit_total {total span explore : Nat} {seed : UInt64} {t : Bandit}
    (h : banditInit total span explore seed = some t) : t.total = total := by
  unfold banditInit at h
  split at h
  next => simp at h
  next =>
    obtain rfl := Option.some.inj h
    rfl

theorem setQuotas_spec {t : Bandit} (ht : t.Shaped) (hE : t.exploreTotal ≤ t.total) (left block : Nat)
    (hn : block + left = t.n) (u : Bandit) (hu : u = { t with b := u.b }) :
    ∃ b, setQuotas left block (quotaPrefix t block) u = some (t.exploreTotal, { t with b := b }) ∧
      (∀ k, block ≤ k → k < t.n → b k = { u.b k with drawn := UInt32.ofNat (blockQuota t k) }) ∧
      ∀ k < block, b k = u.b k := by
  induction left generalizing block u with
  | zero =>
    refine ⟨u.b, ?_, by omega, fun _ _ => rfl⟩
    rw [setQuotas, show block = t.n by omega, quotaPrefix_n ht hE]
    exact congrArg some (congrArg _ hu)
  | succ left ih =>
    have hq : exploreQuotaPrefix u (block + 1) = some (quotaPrefix t (block + 1)) := by
      rw [hu]
      exact exploreQuotaPrefix_eq ht hE (by omega)
    have hspan : blockSpan u block = blockSpan t block := by rw [hu]; rfl
    have hstep := quotaPrefix_step ht hE (k := block) (by omega)
    unfold setQuotas
    rw [hq]
    dsimp only
    rw [hspan, if_neg (by omega)]
    obtain ⟨b, hb, hset, hkeep⟩ := ih (block + 1) (by omega)
      (u.setDrawn block (UInt32.ofNat (blockQuota t block)))
      (by rw [Bandit.setDrawn, hu])
    refine ⟨b, hb, ?_, ?_⟩
    · intro k hk hkn
      rcases Nat.eq_or_lt_of_le hk with h | h
      · subst h
        rw [hkeep block (by omega)]
        simp [Bandit.setDrawn]
      · rw [hset k h hkn]
        simp [Bandit.setDrawn, show k ≠ block by omega]
    · intro k hk
      rw [hkeep k (by omega)]
      simp [Bandit.setDrawn, show k ≠ block by omega]

/-- Setting the exploration total of a fresh bandit never fails. -/
theorem banditSetExploreTotal_ready {t : Bandit} {exploreTotal : Nat} (hfresh : t.Ready)
    (hE : exploreTotal ≤ t.total) :
    ∃ t', banditSetExploreTotal t exploreTotal = some t' ∧ t'.Ready ∧ t'.exactExplore = true ∧
      t'.exploreTotal = exploreTotal ∧ t'.total = t.total ∧ t'.n = t.n ∧ t'.span = t.span := by
  have ht := hfresh.shaped
  let u : Bandit := { t with
    exploreTotal := exploreTotal
    exactExplore := true
    exploreOrder := permInit exploreTotal (mix64 (t.seed ^^^ 0x5354524154494659)) }
  have hu : u.Shaped := ⟨ht.span_pos, ht.n_pos, ht.n_le, ht.span_lt, ht.total_lt, ht.below, ht.above⟩
  obtain ⟨b, hb, hset, _⟩ := setQuotas_spec hu hE t.n 0 (Nat.zero_add _) u rfl
  have hzero : quotaPrefix u 0 = 0 := by simp [quotaPrefix, blockCapacityPrefix]
  rw [hzero] at hb
  refine ⟨{ u with b := b }, ?_, ?_, rfl, rfl, rfl, rfl, rfl⟩
  · rw [banditSetExploreTotal, if_neg (by have := hfresh.issued; omega)]
    dsimp only
    rw [show setQuotas t.n 0 0 _ = _ from hb]
    simp [u]
  · refine ⟨⟨ht.span_pos, ht.n_pos, ht.n_le, ht.span_lt, ht.total_lt, ht.below, ht.above⟩, hE, ?_, ?_,
      hfresh.issued, fun h => by simp [u] at h, hfresh.blockOrder, fun _ => ⟨_, rfl⟩⟩
    · intro k hk
      have hle : blockQuota u k ≤ t.span :=
        Nat.le_trans (blockQuota_le hu hE hk) (Bandit.Shaped.blockSpan_le (t := u) k)
      have hlt := ht.span_lt
      change (b k).drawn.toNat = blockQuota u k
      rw [hset k (Nat.zero_le _) hk]
      exact UInt32.toNat_ofNat_of_lt' (show blockQuota u k < 2 ^ 32 by omega)
    · intro k hk
      change (b k).alpha = 1 ∧ (b k).beta = 1
      rw [hset k (Nat.zero_le _) hk]
      exact hfresh.scores k hk

end Qanat
