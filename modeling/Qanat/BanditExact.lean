import Qanat.BanditRun
import Mathlib.Data.Rat.Cast.Order
import Mathlib.Algebra.Order.Ring.Abs
import Mathlib.Tactic.Ring
import Mathlib.Tactic.LinearCombination

namespace Qanat

section Share

/-- The difference of two floored shares is within one of the share of the difference. -/
theorem floor_share {budget whole c c' : Nat} (hw : 0 < whole) (hb : budget ≤ whole) (hc : c ≤ c') :
    |((budget * c' / whole - budget * c / whole : Nat) : Int) * whole - budget * (c' - c : Nat)| < whole := by
  have hmono := (share_step budget whole hw hb hc).1
  have h := Nat.div_add_mod (budget * c) whole
  have h' := Nat.div_add_mod (budget * c') whole
  have hlt := Nat.mod_lt (budget * c) hw
  have hlt' := Nat.mod_lt (budget * c') hw
  generalize budget * c / whole = q at *
  generalize budget * c' / whole = q' at *
  generalize budget * c % whole = r at *
  generalize budget * c' % whole = r' at *
  have hz : (whole : Int) * q + r = budget * c := by exact_mod_cast h
  have hz' : (whole : Int) * q' + r' = budget * c' := by exact_mod_cast h'
  have heq : ((q' - q : Nat) : Int) * whole - budget * (c' - c : Nat) = r - r' := by
    rw [Nat.cast_sub hmono, Nat.cast_sub hc]
    linear_combination hz' - hz
  rw [heq, abs_lt]
  omega

/-- How far a share that keeps one address for each block is from the plain one. -/
theorem reserved_share {T n E s : Int} (hE : E ≤ T) (hnE : n ≤ E) (hnT : n < T) (hs : 0 < n * s) (hs2 : n * s < 2 * T) :
    |(T - E) * (T - n * s)| < T * (T - n) := by
  have habs : |T - n * s| < T := by
    rw [abs_lt]
    omega
  rw [abs_mul, abs_of_nonneg (by omega)]
  rcases Int.lt_or_eq_of_le hE with h | h
  · calc (T - E) * |T - n * s| < (T - E) * T := by
          apply mul_lt_mul_of_pos_left habs (by omega)
      _ ≤ (T - n) * T := by
          apply mul_le_mul_of_nonneg_right (by omega) (by omega)
      _ = T * (T - n) := mul_comm _ _
  · rw [h, sub_self, zero_mul]
    exact mul_pos (by omega) (by omega)

/-- The reserved shares, with what their floors lose, stay within two of the plain ones. -/
theorem reserved_floor {T n E s more : Int} (hnT : n < T) (hfloor : |more * (T - n) - (E - n) * (s - 1)| < T - n)
    (hreserved : |(T - E) * (T - n * s)| < T * (T - n)) (hT : 0 < T) : |(1 + more) * T - E * s| < 2 * T := by
  have hsplit : (T - n) * ((1 + more) * T - E * s) =
      T * (more * (T - n) - (E - n) * (s - 1)) + (T - E) * (T - n * s) := by ring
  have hlt : (T - n) * |(1 + more) * T - E * s| < (T - n) * (2 * T) := by
    calc (T - n) * |(1 + more) * T - E * s| = |(T - n) * ((1 + more) * T - E * s)| := by
          rw [abs_mul, abs_of_pos (by omega : 0 < T - n)]
      _ ≤ |T * (more * (T - n) - (E - n) * (s - 1))| + |(T - E) * (T - n * s)| := by
          rw [hsplit]
          exact abs_add_le _ _
      _ < T * (T - n) + T * (T - n) := by
          refine add_lt_add ?_ hreserved
          rw [abs_mul, abs_of_pos hT]
          exact mul_lt_mul_of_pos_left hfloor hT
      _ = (T - n) * (2 * T) := by ring
  exact lt_of_mul_lt_mul_left hlt (by omega)

variable {t : Bandit} (ht : t.Shaped) (hE : t.exploreTotal ≤ t.total)
include ht

theorem blockSpan_le_total {k : Nat} (hk : k < t.n) : blockSpan t k ≤ t.total := by
  have hcap := ht.capacity_succ hk
  have hroom := ht.capacity_room (k := k + 1) (by omega)
  omega

/-- A block is less than twice as long as a block is on average. -/
theorem mul_blockSpan_lt {k : Nat} (hk : k < t.n) : t.n * blockSpan t k < 2 * t.total := by
  have hle := Bandit.Shaped.blockSpan_le (t := t) k
  have hpos := ht.blockSpan_pos hk
  have hwhole := blockSpan_le_total ht hk
  have hbelow := ht.below
  rcases Nat.lt_or_ge 1 t.n with h | h
  · have hsplit : t.n * t.span = (t.n - 1) * t.span + t.span := by
      rw [← Nat.succ_mul, Nat.succ_eq_add_one, Nat.sub_add_cancel (by omega)]
    have hone : t.span ≤ (t.n - 1) * t.span := Nat.le_mul_of_pos_left _ (by omega)
    have hmul := Nat.mul_le_mul_left t.n hle
    omega
  · have hn : t.n = 1 := by have := ht.n_pos; omega
    rw [hn, Nat.one_mul]
    omega

theorem blockQuota_high (hn : t.n ≤ t.exploreTotal) {k : Nat} (hk : k < t.n) :
    blockQuota t k = 1 + ((t.exploreTotal - t.n) * (blockCapacityPrefix t (k + 1) - (k + 1)) / (t.total - t.n) -
      (t.exploreTotal - t.n) * (blockCapacityPrefix t k - k) / (t.total - t.n)) := by
  have hcap := ht.capacity_succ hk
  have hpos := ht.blockSpan_pos hk
  have hle := ht.le_capacity (k := k) (by omega)
  have hmono : (t.exploreTotal - t.n) * (blockCapacityPrefix t k - k) / (t.total - t.n) ≤
      (t.exploreTotal - t.n) * (blockCapacityPrefix t (k + 1) - (k + 1)) / (t.total - t.n) :=
    Nat.div_le_div_right (Nat.mul_le_mul_left _ (by omega))
  unfold blockQuota quotaPrefix
  rw [if_pos hn, if_pos hn]
  omega

section Quota

include hE

theorem quota_share_low (hn : t.exploreTotal < t.n) {k : Nat} (hk : k < t.n) :
    |(blockQuota t k : Int) * t.total - t.exploreTotal * blockSpan t k| < t.total := by
  have hbelow := ht.below
  have hcap := ht.capacity_succ hk
  have h := @floor_share _ t.total _ _ (by omega) hE
    (show blockCapacityPrefix t k ≤ blockCapacityPrefix t (k + 1) by omega)
  rw [hcap, Nat.add_sub_cancel_left, ← hcap] at h
  unfold blockQuota quotaPrefix
  rw [if_neg (by omega), if_neg (by omega)]
  exact h

theorem quota_share_high (hn : t.n ≤ t.exploreTotal) {k : Nat} (hk : k < t.n) :
    |(blockQuota t k : Int) * t.total - t.exploreTotal * blockSpan t k| < 2 * t.total := by
  have hbelow := ht.below
  have hcap := ht.capacity_succ hk
  have hpos := ht.blockSpan_pos hk
  have hle := ht.le_capacity (k := k) (by omega)
  have hquota := blockQuota_high ht hn hk
  rcases Nat.eq_or_lt_of_le (Nat.le_trans hn hE) with h0 | h0
  · have hone : blockSpan t k = 1 := by
      have h₁ := ht.capacity_room (k := k + 1) (by omega)
      omega
    have hq : blockQuota t k = 1 := by
      rw [hquota, show t.total - t.n = 0 by omega, Nat.div_zero, Nat.div_zero]
    rw [hone, hq, show t.exploreTotal = t.total by omega, Nat.cast_one, one_mul, mul_one, sub_self, abs_zero]
    omega
  · have hfloor := @floor_share (t.exploreTotal - t.n) (t.total - t.n) _ _ (by omega) (by omega)
      (show blockCapacityPrefix t k - k ≤ blockCapacityPrefix t (k + 1) - (k + 1) by omega)
    rw [show blockCapacityPrefix t (k + 1) - (k + 1) - (blockCapacityPrefix t k - k) = blockSpan t k - 1 by omega]
      at hfloor
    generalize (t.exploreTotal - t.n) * (blockCapacityPrefix t (k + 1) - (k + 1)) / (t.total - t.n) -
      (t.exploreTotal - t.n) * (blockCapacityPrefix t k - k) / (t.total - t.n) = more at hquota hfloor
    have hns : t.n * blockSpan t k < 2 * t.total := mul_blockSpan_lt ht hk
    have hns0 : 0 < t.n * blockSpan t k := Nat.mul_pos ht.n_pos hpos
    have hreserved := reserved_share (T := t.total) (n := t.n) (E := t.exploreTotal) (s := blockSpan t k)
      (by exact_mod_cast hE) (by exact_mod_cast hn) (by exact_mod_cast h0) (by exact_mod_cast hns0)
      (by exact_mod_cast hns)
    rw [hquota, Nat.cast_add, Nat.cast_one]
    rw [Nat.cast_sub hn, Nat.cast_sub h0.le, Nat.cast_sub hpos, Nat.cast_one] at hfloor
    exact reserved_floor (by exact_mod_cast h0) hfloor hreserved (by omega)

end Quota

end Share

section Steps

variable {t : Bandit} (hr : t.Ready) (hexact : t.exactExplore = true)
include hr

theorem sum_drawn : ∑ k ∈ Finset.range t.n, (t.b k).drawn.toNat = t.exploreTotal := by
  have hzero : quotaPrefix t 0 = 0 := by simp [quotaPrefix, blockCapacityPrefix]
  have hsum : ∑ k ∈ Finset.range t.n, (t.b k).drawn.toNat = ∑ k ∈ Finset.range t.n, blockQuota t k :=
    Finset.sum_congr rfl fun k hk => hr.drawn k (Finset.mem_range.mp hk)
  have hupto : ∀ m ≤ t.n, ∑ k ∈ Finset.range m, blockQuota t k = quotaPrefix t m := by
    intro m hm
    induction m with
    | zero => rw [Finset.sum_range_zero, hzero]
    | succ m ih =>
      have := quotaPrefix_step hr.shaped hr.explore_le (k := m) (by omega)
      rw [Finset.sum_range_succ, ih (by omega), blockQuota]
      omega
  rw [hsum, hupto t.n (Nat.le_refl _), quotaPrefix_n hr.shaped hr.explore_le]

theorem quota_pos (hn : t.n ≤ t.exploreTotal) {k : Nat} (hk : k < t.n) : 1 ≤ (t.b k).drawn.toNat := by
  rw [hr.drawn k hk, blockQuota_high hr.shaped hn hk]
  exact Nat.le_add_right _ _

theorem quota_share {k : Nat} (hk : k < t.n) :
    |((t.b k).drawn.toNat : ℚ) - t.exploreTotal * blockSpan t k / t.total| < 2 := by
  have hpos : (0 : ℚ) < t.total := by
    have := hr.shaped.below
    exact_mod_cast (by omega : 0 < t.total)
  have hint : |(blockQuota t k : Int) * t.total - t.exploreTotal * blockSpan t k| < 2 * t.total := by
    rcases Nat.lt_or_ge t.exploreTotal t.n with h | h
    · have := quota_share_low hr.shaped hr.explore_le h hk
      omega
    · exact quota_share_high hr.shaped hr.explore_le h hk
  have hrat : |(blockQuota t k : ℚ) * t.total - t.exploreTotal * blockSpan t k| < 2 * t.total := by
    exact_mod_cast hint
  rw [hr.drawn k hk, ← mul_lt_mul_iff_left₀ hpos, ← abs_of_pos hpos, ← abs_mul, abs_of_pos hpos, sub_mul,
    div_mul_cancel₀ _ hpos.ne']
  exact hrat

include hexact

theorem exactExploreNext_slot {s : Nat} (hs : s < t.exploreTotal) :
    ∃ blk c, blk < t.n ∧ c < blockQuota t blk ∧ quotaPrefix t blk + c = permApply t.exploreOrder s ∧
      exactExploreNext t s = some (slotIndex t blk c) := by
  obtain ⟨seed, horder⟩ := hr.exploreOrder hexact
  apply exactExploreNext_spec hr.shaped hr.explore_le
  rw [horder]
  exact permApply_lt seed (Nat.le_trans hr.explore_le hr.shaped.total_lt.le) hs

theorem exactExploreNext_inj {s s' x : Nat} (hs : s < t.exploreTotal) (hs' : s' < t.exploreTotal)
    (h : exactExploreNext t s = some x) (h' : exactExploreNext t s' = some x) : s = s' := by
  obtain ⟨seed, horder⟩ := hr.exploreOrder hexact
  obtain ⟨blk, c, hblk, hc, hmap, hsome⟩ := exactExploreNext_slot hr hexact hs
  obtain ⟨blk', c', hblk', hc', hmap', hsome'⟩ := exactExploreNext_slot hr hexact hs'
  have hle := blockQuota_le hr.shaped hr.explore_le hblk
  have hle' := blockQuota_le hr.shaped hr.explore_le hblk'
  have hslot : slotIndex t blk c = slotIndex t blk' c' :=
    Option.some.inj ((hsome.symm.trans h).trans (h'.symm.trans hsome'))
  obtain ⟨rfl, rfl⟩ := slotIndex_injective hr.shaped (by omega) (by omega) hslot
  have heq := hmap.symm.trans hmap'
  rw [horder] at heq
  exact permApply_injective seed (Nat.le_trans hr.explore_le hr.shaped.total_lt.le) hs hs' heq

/-- A step is mapped into the block whose quota it falls in. -/
theorem exactExploreNext_block {s k : Nat} (hs : s < t.exploreTotal) (hk : k < t.n) :
    (exactExploreNext t s).map (· / t.span) = some k ↔
      quotaPrefix t k ≤ permApply t.exploreOrder s ∧ permApply t.exploreOrder s < quotaPrefix t (k + 1) := by
  obtain ⟨blk, c, hblk, hc, hmap, hsome⟩ := exactExploreNext_slot hr hexact hs
  have hle := blockQuota_le hr.shaped hr.explore_le hblk
  have hstep := quotaPrefix_step hr.shaped hr.explore_le hblk
  rw [hsome, Option.map_some, slotIndex_div hr.shaped (by omega), Option.some.injEq, ← hmap]
  unfold blockQuota at hc
  constructor
  · rintro rfl
    omega
  · rintro ⟨h₁, h₂⟩
    rcases Nat.lt_trichotomy blk k with h | h | h
    · have := quotaPrefix_mono hr.shaped hr.explore_le (show blk + 1 ≤ k by omega) hk.le
      omega
    · exact h
    · have := quotaPrefix_mono hr.shaped hr.explore_le (show k + 1 ≤ blk by omega) hblk.le
      omega

theorem card_block {k : Nat} (hk : k < t.n) :
    ((Finset.range t.exploreTotal).filter fun s => (exactExploreNext t s).map (· / t.span) = some k).card =
      (t.b k).drawn.toNat := by
  obtain ⟨seed, horder⟩ := hr.exploreOrder hexact
  have h64 := Nat.le_trans hr.explore_le hr.shaped.total_lt.le
  have htop := quotaPrefix_mono hr.shaped hr.explore_le (show k + 1 ≤ t.n by omega) (Nat.le_refl _)
  rw [quotaPrefix_n hr.shaped hr.explore_le] at htop
  rw [hr.drawn k hk, blockQuota, ← Nat.card_Ico]
  refine Finset.card_nbij (permApply t.exploreOrder) ?_ ?_ ?_
  · intro s hs
    obtain ⟨hs, hblock⟩ := Finset.mem_filter.mp hs
    exact Finset.mem_Ico.mpr ((exactExploreNext_block hr hexact (Finset.mem_range.mp hs) hk).mp hblock)
  · rw [horder]
    exact (permApply_injOn seed h64).mono (Finset.coe_subset.mpr (Finset.filter_subset _ _))
  · intro m hm
    have hm := Finset.mem_Ico.mp (Finset.mem_coe.mp hm)
    obtain ⟨s, hs, hmap⟩ := permApply_surjOn seed h64 (Finset.mem_coe.mpr (Finset.mem_range.mpr (by omega : m < _)))
    rw [← horder] at hmap
    have hs := Finset.mem_range.mp (Finset.mem_coe.mp hs)
    refine ⟨s, Finset.mem_coe.mpr (Finset.mem_filter.mpr ⟨Finset.mem_range.mpr hs, ?_⟩), hmap⟩
    rw [exactExploreNext_block hr hexact hs hk, hmap]
    exact hm

end Steps

section Take

/-- `take`, from its increment to its return. -/
def banditTake (t : Bandit) (blk : Nat) : Bandit × Option Nat :=
  let c := (t.b blk).drawn
  let t' := t.setDrawn blk (c + 1)
  if blockSpan t blk ≤ c.toNat then (t'.setDrawn blk ((t'.b blk).drawn - 1), none)
  else (t', some (slotIndex t blk c.toNat))

/-- The indices that calls of `take` on these blocks hand out, one call after the other. -/
def takeRun (t : Bandit) : List Nat → List Nat
  | [] => []
  | blk :: blks => (banditTake t blk).2.toList ++ takeRun (banditTake t blk).1 blks

variable {t₀ t : Bandit}

/-- No counter is below the quota of its block. -/
def AboveQuota (t₀ t : Bandit) : Prop :=
  t₀.Same t ∧ ∀ k < t₀.n, blockQuota t₀ k ≤ (t.b k).drawn.toNat

theorem banditTake_above (ht : t₀.Shaped) (h : AboveQuota t₀ t) {blk : Nat} (hblk : blk < t₀.n) :
    AboveQuota t₀ (banditTake t blk).1 ∧
      ∀ x, (banditTake t blk).2 = some x →
        ∃ c, blockQuota t₀ blk ≤ c ∧ c < blockSpan t₀ blk ∧ x = slotIndex t₀ blk c := by
  obtain ⟨hsame, hdrawn⟩ := h
  have hspan : blockSpan t blk < 2 ^ 32 := by
    rw [hsame.blockSpan_eq]
    exact Nat.lt_of_le_of_lt (Bandit.Shaped.blockSpan_le blk) ht.span_lt
  unfold banditTake
  dsimp only
  split
  next hfull =>
    refine ⟨⟨(hsame.setDrawn _ _).setDrawn _ _, fun k hk => ?_⟩, fun x hx => by cases hx⟩
    have hback : (t.b blk).drawn + 1 - 1 = (t.b blk).drawn := by rw [UInt32.add_sub_cancel]
    by_cases hkb : k = blk
    · subst hkb
      simp only [Bandit.setDrawn, if_true, hback]
      exact hdrawn k hk
    · simp only [Bandit.setDrawn, if_neg hkb]
      exact hdrawn k hk
  next hroom =>
    have hsucc : ((t.b blk).drawn + 1).toNat = (t.b blk).drawn.toNat + 1 := by
      rw [UInt32.toNat_add]
      exact Nat.mod_eq_of_lt (show (t.b blk).drawn.toNat + 1 < 2 ^ 32 by omega)
    refine ⟨⟨hsame.setDrawn _ _, fun k hk => ?_⟩, fun x hx => ?_⟩
    · by_cases hkb : k = blk
      · subst hkb
        simp only [Bandit.setDrawn, if_true, hsucc]
        exact Nat.le_succ_of_le (hdrawn k hk)
      · simp only [Bandit.setDrawn, if_neg hkb]
        exact hdrawn k hk
    · refine ⟨(t.b blk).drawn.toNat, hdrawn blk hblk, ?_, ?_⟩
      · rw [← hsame.blockSpan_eq]
        omega
      · rw [← hsame.slotIndex_eq]
        exact (Option.some.inj hx).symm

theorem takeRun_above (ht : t₀.Shaped) (h : AboveQuota t₀ t) {blks : List Nat} (hblks : ∀ blk ∈ blks, blk < t₀.n) :
    ∀ x ∈ takeRun t blks, ∃ blk c, blockQuota t₀ blk ≤ c ∧ c < blockSpan t₀ blk ∧ x = slotIndex t₀ blk c := by
  induction blks generalizing t with
  | nil => exact fun x hx => absurd hx List.not_mem_nil
  | cons blk blks ih =>
    obtain ⟨habove, hresult⟩ := banditTake_above ht h (hblks blk List.mem_cons_self)
    intro x hx
    rcases List.mem_append.mp hx with hx | hx
    · exact ⟨blk, hresult x (Option.mem_toList.mp hx)⟩
    · exact ih habove (fun b hb => hblks b (List.mem_cons_of_mem _ hb)) x hx

end Take

/-- Exact exploration serves every quota once, and `take` never hands out what it serves. -/
theorem explore_quotas_exact {total requested explore E : Nat} {seed : UInt64} {t : Bandit} (hreq : requested < 2 ^ 32)
    (htotal : total < 2 ^ 64) (hinit : banditInit total requested explore seed = some t) (hE : E ≤ total) :
    ∃ t', banditSetExploreTotal t E = some t' ∧
      ∑ k ∈ Finset.range t'.n, (t'.b k).drawn.toNat = E ∧
      (∀ k < t'.n, (t'.b k).drawn.toNat ≤ blockSpan t' k ∧ (t'.n ≤ E → 1 ≤ (t'.b k).drawn.toNat) ∧
        |((t'.b k).drawn.toNat : ℚ) - E * blockSpan t' k / total| < 2) ∧
      (∀ s < E, ∃ x < total, exactExploreNext t' s = some x) ∧
      (∀ s < E, ∀ s' < E, exactExploreNext t' s = exactExploreNext t' s' → s = s') ∧
      (∀ k < t'.n, ((Finset.range E).filter fun s => (exactExploreNext t' s).map (· / t'.span) = some k).card =
        (t'.b k).drawn.toNat) ∧
      ∀ blks : List Nat, (∀ blk ∈ blks, blk < t'.n) → ∀ x ∈ takeRun t' blks, ∀ s < E, exactExploreNext t' s ≠ some x := by
  have hfresh := banditInit_ready hreq htotal hinit
  have htot := banditInit_total hinit
  obtain ⟨t', hset, hr, hexact, hexplore, htotal', -, -⟩ := banditSetExploreTotal_ready hfresh (by omega : E ≤ t.total)
  rw [htot] at htotal'
  subst hexplore
  refine ⟨t', hset, sum_drawn hr, fun k hk => ⟨?_, fun hn => quota_pos hr hn hk, ?_⟩, fun s hs => ?_,
    fun s hs s' hs' heq => ?_, fun k hk => card_block hr hexact hk, fun blks hblks x hx s hs hsome => ?_⟩
  · rw [hr.drawn k hk]
    exact blockQuota_le hr.shaped hr.explore_le hk
  · rw [← htotal']
    exact quota_share hr hk
  · obtain ⟨blk, c, hblk, hc, -, hsome⟩ := exactExploreNext_slot hr hexact hs
    have hle := blockQuota_le hr.shaped hr.explore_le hblk
    rw [← htotal']
    exact ⟨_, slotIndex_lt hr.shaped hblk (by omega), hsome⟩
  · obtain ⟨blk, c, -, -, -, hsome⟩ := exactExploreNext_slot hr hexact hs
    exact exactExploreNext_inj hr hexact hs hs' hsome (heq.symm.trans hsome)
  · obtain ⟨blk, c, hblk, hc, -, hsome'⟩ := exactExploreNext_slot hr hexact hs
    have hstart : AboveQuota t' t' := ⟨rfl, fun k hk => (hr.drawn k hk).ge⟩
    obtain ⟨blk', c', hquota, hspan, rfl⟩ := takeRun_above hr.shaped hstart hblks x hx
    have hle := blockQuota_le hr.shaped hr.explore_le hblk
    obtain ⟨rfl, rfl⟩ := slotIndex_injective hr.shaped (by omega) hspan (Option.some.inj (hsome'.symm.trans hsome))
    omega

theorem explore_quotas_exact_ten :
    ∃ t t', banditInit 10 4 2 7 = some t ∧ banditSetExploreTotal t 5 = some t' ∧
      ∑ k ∈ Finset.range t'.n, (t'.b k).drawn.toNat = 5 := by
  obtain ⟨t, ht⟩ : ∃ t, banditInit 10 4 2 7 = some t := ⟨_, rfl⟩
  obtain ⟨t', hset, hsum, -⟩ := explore_quotas_exact (by decide) (by decide) ht (show 5 ≤ 10 by decide)
  exact ⟨t, t', ht, hset, hsum⟩

end Qanat
