import Qanat.BanditRun
import Mathlib.Data.Finset.Dedup
import Mathlib.Algebra.BigOperators.Ring.Finset
import Mathlib.Algebra.Order.BigOperators.Group.Finset

namespace Qanat

theorem sum_blockSpan {t : Bandit} (ht : t.Shaped) {k : Nat} (hk : k ≤ t.n) :
    ∑ b ∈ Finset.range k, blockSpan t b = blockCapacityPrefix t k := by
  induction k with
  | zero => rfl
  | succ k ih => rw [Finset.sum_range_succ, ih (by omega), ht.capacity_succ (by omega)]

theorem sum_blockQuota {t : Bandit} (ht : t.Shaped) (hE : t.exploreTotal ≤ t.total) {k : Nat}
    (hk : k ≤ t.n) : ∑ b ∈ Finset.range k, blockQuota t b = quotaPrefix t k := by
  induction k with
  | zero => simp [quotaPrefix, blockCapacityPrefix]
  | succ k ih =>
    have := (quotaPrefix_step ht hE (k := k) (by omega)).1
    rw [Finset.sum_range_succ, ih (by omega), blockQuota]
    omega

theorem sum_range_late (low bound : Nat) :
    ∑ s ∈ Finset.range bound, (if s < low then 0 else 1) ≤ bound - low := by
  induction bound with
  | zero => simp
  | succ bound ih =>
    rw [Finset.sum_range_succ]
    split <;> omega

/-- Distinct numbers below `bound`: at most `bound - low` of them are not below `low`. -/
theorem nodup_sum_le {l : List Nat} (hl : l.Nodup) (low : Nat) {bound : Nat}
    (hb : ∀ s ∈ l, s < bound) :
    (l.map fun s => if s < low then 0 else 1).sum ≤ bound - low := by
  rw [← List.sum_toFinset _ hl]
  calc ∑ s ∈ l.toFinset, (if s < low then 0 else 1)
      ≤ ∑ s ∈ Finset.range bound, (if s < low then 0 else 1) := by
        apply Finset.sum_le_sum_of_subset
        intro s hs
        exact Finset.mem_range.mpr (hb s (List.mem_toFinset.mp hs))
    _ ≤ bound - low := sum_range_late low bound

theorem later_step {t₀ : Bandit} (hr : t₀.Ready) {s : Nat} (hs : ¬ExploreStep t₀ s) :
    t₀.exploreTotal ≤ s := by
  rcases hx : t₀.exactExplore with _ | _
  · rw [hr.inexact hx]
    exact Nat.zero_le _
  · exact Nat.le_of_not_lt fun hlt => hs ⟨hx, hlt⟩

theorem takenBy_le {t₀ : Bandit} (hr : t₀.Ready) (x : Nat × DrawPc) :
    takenBy t₀ x ≤ if x.1 < t₀.exploreTotal then 0 else 1 := by
  unfold takenBy
  by_cases hx : ExploreStep t₀ x.1
  · rw [if_pos hx]
    exact Nat.zero_le _
  · have := later_step hr hx
    rw [if_neg hx, if_neg (show ¬x.1 < t₀.exploreTotal by omega)]
    split <;> omega

theorem DrawInv.steps_below {t₀ : Bandit} {c : DrawState} {cl : Nat → Nat} (h : DrawInv t₀ c cl) :
    ∀ s ∈ c.calls.map Prod.fst, s < t₀.total := by
  intro s hs
  obtain ⟨x, hx, rfl⟩ := List.mem_map.mp hs
  exact h.step_lt x hx

theorem returnedBy_le (x : Nat × DrawPc) : returnedBy x ≤ 1 := by
  unfold returnedBy
  split <;> omega

/-- While a call is under way not every step has been answered. -/
theorem DrawInv.issued_lt {t₀ : Bandit} {c : DrawState} {cl : Nat → Nat} (h : DrawInv t₀ c cl)
    {i s : Nat} {pc : DrawPc} (hi : c.calls[i]? = some (s, pc)) (hret : pc.returned = false) :
    c.bandit.issued < t₀.total := by
  have hsteps := nodup_sum_le h.steps 0 h.steps_below
  rw [List.map_map] at hsteps
  change (c.calls.map fun _ => 1).sum ≤ _ at hsteps
  have hgap := ListSum.sum_map_gap (g := fun _ => 1) (fun x _ => returnedBy_le x) hi
  have hzero : returnedBy (s, pc) = 0 := by simp [returnedBy, hret]
  rw [h.issued]
  omega

section Count

variable {t₀ : Bandit} (hr : t₀.Ready) {c : DrawState} {cl : Nat → Nat} (h : DrawInv t₀ c cl)
include hr h

/-- Every claimed offset is reserved for exploration or held by a later call. -/
theorem DrawInv.sum_claimed :
    ∑ b ∈ Finset.range t₀.n, cl b = t₀.exploreTotal + (c.calls.map (takenBy t₀)).sum := by
  have hsplit : ∑ b ∈ Finset.range t₀.n, (cl b - blockQuota t₀ b) +
      ∑ b ∈ Finset.range t₀.n, blockQuota t₀ b = ∑ b ∈ Finset.range t₀.n, cl b := by
    rw [← Finset.sum_add_distrib]
    apply Finset.sum_congr rfl
    intro b hb
    exact Nat.sub_add_cancel (h.bounds b (Finset.mem_range.mp hb)).1
  rw [sum_blockQuota hr.shaped hr.explore_le (le_refl _), quotaPrefix_n hr.shaped hr.explore_le,
    h.taken] at hsplit
  omega

/-- A call that takes from the blocks and holds nothing yet leaves room in some block. -/
theorem DrawInv.exists_room {i s : Nat} {pc : DrawPc} (hi : c.calls[i]? = some (s, pc))
    (hs : ¬ExploreStep t₀ s) (hheld : pc.held = none) : ∃ b < t₀.n, cl b < blockSpan t₀ b := by
  by_contra hfull
  push Not at hfull
  have hspan : ∑ b ∈ Finset.range t₀.n, cl b = t₀.total := by
    rw [← hr.shaped.capacity_n, ← sum_blockSpan hr.shaped (le_refl _)]
    apply Finset.sum_congr rfl
    intro b hb
    have hb := Finset.mem_range.mp hb
    exact Nat.le_antisymm (h.bounds b hb).2 (hfull b hb)
  have hclaimed := h.sum_claimed hr
  have hsteps := nodup_sum_le h.steps t₀.exploreTotal h.steps_below
  have hgap := ListSum.sum_map_gap (fun x _ => takenBy_le hr x) hi
  rw [List.map_map] at hsteps
  change (c.calls.map fun x : Nat × DrawPc => if x.1 < t₀.exploreTotal then 0 else 1).sum ≤ _ at hsteps
  have hlate := later_step hr hs
  have hone : takenBy t₀ (s, pc) = 0 := by simp [takenBy, hheld]
  simp only [hone, show ¬s < t₀.exploreTotal by omega, if_false] at hgap
  have := hr.explore_le
  have := h.step_lt _ (List.mem_of_getElem? hi)
  dsimp only at this
  omega

/-- An index reserved for exploration is held by the call whose step it belongs to. -/
theorem DrawInv.explore_owner {s s' v : Nat} (hs : ExploreStep t₀ s)
    (hv : exactExploreNext t₀ s = some v) (hheld : HeldBy t₀ cl s' v) : s = s' := by
  have ht := hr.shaped
  have hE := hr.explore_le
  obtain ⟨seed, hseed⟩ := hr.exploreOrder hs.1
  have h64 : t₀.exploreTotal ≤ 2 ^ 64 := by have := ht.total_lt; omega
  have hmap {k : Nat} (hk : k < t₀.exploreTotal) : permApply t₀.exploreOrder k < t₀.exploreTotal := by
    rw [hseed]
    exact permApply_lt seed h64 hk
  obtain ⟨blk, k, hb, hk, hpos, hres⟩ := exactExploreNext_spec ht hE (hmap hs.2)
  have hkspan := Nat.lt_of_lt_of_le hk (blockQuota_le ht hE hb)
  rw [hv] at hres
  rcases hheld with ⟨hs', hv'⟩ | ⟨_, blk', k', hb', hq, hk', he⟩
  · obtain ⟨blk', k', hb', hk', hpos', hres'⟩ := exactExploreNext_spec ht hE (hmap hs'.2)
    rw [hv'] at hres'
    have hkspan' := Nat.lt_of_lt_of_le hk' (blockQuota_le ht hE hb')
    obtain ⟨rfl, rfl⟩ := slotIndex_injective ht hkspan hkspan'
      ((Option.some.inj hres).symm.trans (Option.some.inj hres'))
    rw [hpos'] at hpos
    rw [hseed] at hpos
    exact permApply_injective seed h64 hs.2 hs'.2 hpos.symm
  · have hkspan' := Nat.lt_of_lt_of_le hk' (h.bounds blk' hb').2
    obtain ⟨rfl, rfl⟩ := slotIndex_injective ht hkspan hkspan' ((Option.some.inj hres).symm.trans he)
    omega

end Count

section Exec

variable {t₀ : Bandit} (hr : t₀.Ready) {c : DrawState} {cl : Nat → Nat} (h : DrawInv t₀ c cl)
  {i s : Nat}
include hr h

theorem drawInv_start {step : Nat} (hi : c.calls[i]? = some (s, .start step)) :
    DrawInv t₀ ⟨c.bandit, c.calls.set i (s, drawStart c.bandit step)⟩ cl := by
  have hstep : step = s := h.pcs _ (List.mem_of_getElem? hi)
  subst hstep
  have hissued := h.issued_lt hi rfl
  have hn := hr.shaped.n_pos
  unfold drawStart
  dsimp only
  rw [h.same.total_eq, if_neg (by omega)]
  split
  next hexp =>
    have hexp : ExploreStep t₀ step := (h.same.exploreStep_iff step).mp hexp
    obtain ⟨seed, hseed⟩ := hr.exploreOrder hexp.1
    have hmap : permApply t₀.exploreOrder step < t₀.exploreTotal := by
      rw [hseed]
      exact permApply_lt seed (by have := hr.shaped.total_lt; have := hr.explore_le; omega) hexp.2
    obtain ⟨_, _, _, _, _, hres⟩ := exactExploreNext_spec hr.shaped hr.explore_le hmap
    rw [h.same.exact_eq, hres]
    dsimp only
    refine h.update hi h.same (fun _ _ => le_refl _) (fun b hb => (h.bounds b hb).2) (fun _ _ => rfl)
      (Or.inl ⟨hexp, hres⟩) ?_ ?_ rfl
    · intro v hv
      refine Or.inr fun j y hj hy hheld => hj ?_
      have howner := h.explore_owner hr hexp (hres.trans hv) ((h.pcs y (List.mem_of_getElem? hy)).held hheld)
      have hfst : (c.calls.map Prod.fst)[j]? = (c.calls.map Prod.fst)[i]? := by
        rw [List.getElem?_map, List.getElem?_map, hy, hi]
        simp [← howner]
      obtain ⟨hlt, _⟩ := List.getElem?_eq_some_iff.mp hy
      exact (List.getElem?_inj (by simpa using hlt) h.steps).mp hfst
    · simp [takenBy, hexp]
  next hexp =>
    have hexp : ¬ExploreStep t₀ step := fun hx => hexp ((h.same.exploreStep_iff step).mpr hx)
    split
    next hin =>
      obtain ⟨seed, hseed⟩ := hr.blockOrder
      have horder : c.bandit.blockOrder = t₀.blockOrder := by rw [h.same]
      refine h.quiet hi ⟨hexp, ?_, trivial⟩ rfl rfl (fun _ => rfl) (fun _ => rfl) rfl rfl
      rw [horder, h.same.n_eq, hseed]
      exact permApply_lt seed (Nat.le_trans hr.shaped.n_le (by decide)) (Nat.mod_lt _ hn)
    next => exact h.quiet hi hexp rfl rfl (fun _ => rfl) (fun _ => rfl) rfl rfl

theorem drawInv_linear {blk : Nat} (hi : c.calls[i]? = some (s, .linear blk)) :
    DrawInv t₀ ⟨c.bandit, c.calls.set i
      (s, if blk < c.bandit.n then .take .linear blk else .done none)⟩ cl := by
  obtain ⟨hs, hfull⟩ := h.pcs _ (List.mem_of_getElem? hi)
  obtain ⟨b, hb, hroom⟩ := h.exists_room hr hi hs rfl
  have hlt : blk < t₀.n := by
    by_contra hge
    have := hfull b (by omega) hb
    omega
  rw [h.same.n_eq, if_pos hlt]
  exact h.quiet hi ⟨hs, hlt, hfull⟩ rfl rfl (fun _ => rfl) (fun _ => rfl) rfl rfl

omit hr in
theorem drawInv_undo {site : TakeSite} {blk : Nat} (hi : c.calls[i]? = some (s, .undo site blk)) :
    DrawInv t₀ ⟨c.bandit.setDrawn blk ((c.bandit.b blk).drawn - 1),
      c.calls.set i (s, afterFull site blk)⟩ cl := by
  obtain ⟨hs, hb, hfull, hbelow⟩ := h.pcs _ (List.mem_of_getElem? hi)
  have hheld : (afterFull site blk).held = none := by cases site <;> rfl
  have hover : ∀ b, overBy b (s, afterFull site blk) = 0 := by cases site <;> exact fun _ => rfl
  have hret : (afterFull site blk).returned = false := by cases site <;> rfl
  have hpc : PcOk t₀ cl s (afterFull site blk) := by
    cases site with
    | explore => exact hs
    | exploit => exact hs
    | linear =>
      refine ⟨hs, ?_⟩
      intro b hlt hn
      rcases Nat.lt_succ_iff_lt_or_eq.mp hlt with hlt | rfl
      · exact hbelow b hlt hn
      · exact hfull
  refine h.update hi (h.same.setDrawn _ _) (fun _ _ => le_refl _) (fun b hb => (h.bounds b hb).2) ?_ hpc
    (by simp [hheld]) ?_ ?_
  rotate_left
  · have hnone : (DrawPc.undo site blk).held = none := rfl
    simp [takenBy, hheld, hnone]
  · have hrun : (DrawPc.undo site blk).returned = false := rfl
    simp [returnedBy, hret, hrun, Bandit.setDrawn]
  intro b hbn
  rw [hover]
  by_cases hbb : b = blk
  · subst hbb
    have hpos := ListSum.le_sum_map (overBy b) hi
    have hone : overBy b (s, .undo site b) = 1 := by simp [overBy]
    have hdrawn := h.drawn b hbn
    have hsub : ((c.bandit.b b).drawn - 1).toNat = (c.bandit.b b).drawn.toNat - 1 := by
      apply UInt32.toNat_sub_of_le
      rw [UInt32.le_iff_toNat_le]
      change 1 ≤ _
      omega
    simp only [Bandit.setDrawn, if_true, hsub, hone]
    omega
  · simp [Bandit.setDrawn, hbb, overBy, Ne.symm hbb]

/-- `take` either claims the next free offset of the block or finds the block full. -/
theorem drawInv_take {site : TakeSite} {blk : Nat} (hi : c.calls[i]? = some (s, .take site blk))
    (hroom : (c.bandit.b blk).drawn.toNat + 1 < 2 ^ 32) {t' : Bandit} {pc' : DrawPc}
    (hexec : execDraw c.bandit (.take site blk) = some (t', pc')) :
    ∃ cl', DrawInv t₀ ⟨t', c.calls.set i (s, pc')⟩ cl' := by
  obtain ⟨hs, hb, hbelow⟩ := h.pcs _ (List.mem_of_getElem? hi)
  have hdrawn := h.drawn blk hb
  have hbound := h.bounds blk hb
  have hadd : ((c.bandit.b blk).drawn + 1).toNat = (c.bandit.b blk).drawn.toNat + 1 := by
    rw [UInt32.toNat_add]
    exact Nat.mod_eq_of_lt hroom
  simp only [execDraw] at hexec
  rw [h.same.blockSpan_eq] at hexec
  split at hexec
  next hge =>
    obtain ⟨rfl, rfl⟩ := Prod.mk.inj (Option.some.inj hexec)
    have hfull : cl blk = blockSpan t₀ blk := by
      rcases Nat.eq_zero_or_pos ((c.calls.map (overBy blk)).sum) with h0 | hpos
      · omega
      · exact h.full_of_over hpos
    refine ⟨cl, h.update hi (h.same.setDrawn _ _) (fun _ _ => le_refl _) (fun b hb => (h.bounds b hb).2)
      ?_ ⟨hs, hb, hfull, hbelow⟩ (by simp [DrawPc.held]) rfl rfl⟩
    intro b _
    by_cases hbb : b = blk
    · subst hbb
      simp only [Bandit.setDrawn, if_true, hadd, overBy]
      omega
    · simp [Bandit.setDrawn, hbb, overBy, Ne.symm hbb]
  next hlt =>
    obtain ⟨rfl, rfl⟩ := Prod.mk.inj (Option.some.inj hexec)
    have hzero : (c.calls.map (overBy blk)).sum = 0 := by
      by_contra hne
      have := h.full_of_over (Nat.pos_of_ne_zero hne)
      omega
    have hcl : (c.bandit.b blk).drawn.toNat = cl blk := by omega
    rw [hcl, h.same.slotIndex_eq]
    let cl' : Nat → Nat := fun b => if b = blk then cl b + 1 else cl b
    have hclk : cl' blk = cl blk + 1 := if_pos rfl
    have hle : ∀ b < t₀.n, cl b ≤ cl' b := by
      intro b _
      simp only [cl']
      split <;> omega
    have hcap : ∀ b < t₀.n, cl' b ≤ blockSpan t₀ b := by
      intro b hbn
      have := (h.bounds b hbn).2
      by_cases hbb : b = blk
      · subst hbb
        omega
      · simpa [cl', hbb] using this
    refine ⟨cl', h.update hi (h.same.setDrawn _ _) hle hcap ?_
      (Or.inr ⟨hs, blk, cl blk, hb, hbound.1, by omega, rfl⟩) ?_ ?_ rfl⟩
    · intro b _
      by_cases hbb : b = blk
      · subst hbb
        simp only [Bandit.setDrawn, if_true, hadd, overBy, hclk]
        omega
      · simp [Bandit.setDrawn, hbb, overBy, cl']
    · intro v hv
      refine Or.inr fun j y _ hy hheld => ?_
      have hv : slotIndex t₀ blk (cl blk) = v := Option.some.inj hv
      rcases (h.pcs y (List.mem_of_getElem? hy)).held hheld with ⟨hexp, hnext⟩ | ⟨_, b, k, hbn, _, hk, he⟩
      · obtain ⟨seed, hseed⟩ := hr.exploreOrder hexp.1
        have hmap : permApply t₀.exploreOrder y.1 < t₀.exploreTotal := by
          rw [hseed]
          exact permApply_lt seed (by have := hr.shaped.total_lt; have := hr.explore_le; omega) hexp.2
        obtain ⟨b, k, hbn, hk, _, hres⟩ := exactExploreNext_spec hr.shaped hr.explore_le hmap
        rw [hnext] at hres
        have hkspan := Nat.lt_of_lt_of_le hk (blockQuota_le hr.shaped hr.explore_le hbn)
        obtain ⟨rfl, rfl⟩ := slotIndex_injective hr.shaped (by omega) hkspan
          (hv.trans (Option.some.inj hres))
        omega
      · have hkspan := Nat.lt_of_lt_of_le hk (h.bounds b hbn).2
        obtain ⟨rfl, rfl⟩ := slotIndex_injective hr.shaped (by omega) hkspan (hv.trans he)
        omega
    · have hsum : ∑ b ∈ Finset.range t₀.n, (cl' b - blockQuota t₀ b) =
          ∑ b ∈ Finset.range t₀.n, (cl b - blockQuota t₀ b) + 1 := by
        rw [← Finset.add_sum_erase _ _ (Finset.mem_range.mpr hb),
          ← Finset.add_sum_erase (Finset.range t₀.n) (fun b => cl b - blockQuota t₀ b)
            (Finset.mem_range.mpr hb)]
        have hrest : ∑ b ∈ (Finset.range t₀.n).erase blk, (cl' b - blockQuota t₀ b) =
            ∑ b ∈ (Finset.range t₀.n).erase blk, (cl b - blockQuota t₀ b) := by
          apply Finset.sum_congr rfl
          intro b hbe
          simp only [cl', if_neg (Finset.ne_of_mem_erase hbe)]
        rw [hrest, hclk]
        omega
      simp [takenBy, hs, DrawPc.held, hsum]

end Exec

end Qanat
