import Qanat.BanditCoverage
import Qanat.SweepRun

namespace Qanat

open Transition

theorem addAll_canonV4 {cap : Nat} {skipEdges : Bool} {ps : List Prefix} {s : CidrSet}
    (hps : ∀ p ∈ ps, ∃ a, p.net = .v4 a) (h : ps.foldlM cidrSetAdd (cidrSetInit cap skipEdges) = some s) :
    ∀ p ∈ s.v, p.CanonV4 := by
  obtain ⟨hcanon, -, rfl⟩ := (addAll_iff (s := cidrSetInit cap skipEdges) (Nat.zero_le _)).mp h
  intro p hp
  obtain ⟨a, ha⟩ := hps p hp
  exact (hcanon p hp).canonV4 ha

/-- The invariant of a sweep that follows the uniform permutation. -/
structure PermutedInv (s₀ : CfScan) (c : SweepState) : Prop where
  frame : c.scan = { s₀ with bandit := c.scan.bandit }
  indices : (c.calls.map Prod.fst).Nodup
  planned : ∀ x ∈ c.calls, x.1 < s₀.plan.plannedAddresses
  points : ∀ x ∈ c.calls, x.2 = .start x.1 ∨ x.2 = .ret (sweepPick s₀ (permApply s₀.uniform x.1))

theorem permutedInv_step {s₀ : CfScan} (hperm : s₀.permuted = true) (hfull : s₀.full = false)
    {c c' : SweepState} {a : DrawAct} (h : PermutedInv s₀ c) (hstep : sweepStep c a = some c') :
    PermutedInv s₀ c' := by
  have hplan : c.scan.plan = s₀.plan := by rw [h.frame]
  cases a with
  | call idx =>
    simp only [sweepStep] at hstep
    split at hstep
    next hcond =>
      obtain rfl := Option.some.inj hstep
      rw [hplan] at hcond
      refine ⟨h.frame, ?_, mem_append_one_cases h.planned hcond.1,
        mem_append_one_cases h.points (Or.inl rfl)⟩
      rw [List.map_append]
      refine List.nodup_append.mpr ⟨h.indices, List.nodup_singleton _, ?_⟩
      rintro x hx y hy rfl
      rw [List.mem_singleton.mp hy] at hx
      exact hcond.2 hx
    next => simp at hstep
  | exec i =>
    simp only [sweepStep] at hstep
    split at hstep
    next => simp at hstep
    next idx pc hi =>
      have hidx := h.planned _ (List.mem_of_getElem? hi)
      have hpoint := h.points _ (List.mem_of_getElem? hi)
      split at hstep
      next => simp at hstep
      next s pc' hexec =>
        obtain rfl := Option.some.inj hstep
        rcases hpoint with hpc | hpc
        · dsimp only at hpc hidx
          subst hpc
          obtain ⟨rfl, hpc'⟩ := Prod.mk.inj (Option.some.inj hexec)
          have hper : c.scan.permuted = true := by rw [h.frame]; exact hperm
          have hopen : c.scan.full = false := by rw [h.frame]; exact hfull
          have hpick : sweepPick c.scan (permApply c.scan.uniform idx) =
              sweepPick s₀ (permApply s₀.uniform idx) := by rw [h.frame]; rfl
          rw [hopen, hper, hplan, if_neg (by simp), if_neg (by omega), if_pos rfl, hpick] at hpc'
          subst hpc'
          refine ⟨h.frame, ?_, mem_set_cases h.planned hidx, mem_set_cases h.points (Or.inr rfl)⟩
          have hsame := ListSum.map_set_of_eq Prod.fst
            (b := (idx, .ret (sweepPick s₀ (permApply s₀.uniform idx)))) hi rfl
          rw [hsame]
          exact h.indices
        · dsimp only at hpc
          subst hpc
          simp [execSweep] at hexec
  | report index good =>
    obtain rfl := Option.some.inj hstep
    refine ⟨?_, h.indices, h.planned, h.points⟩
    rw [h.frame]

/-- What a sweep has answered so far: jobs only, for addresses of the set, with distinct tokens. -/
structure SweepOk (set : CidrSet) (c : SweepState) : Prop where
  jobs : ∀ x ∈ c.calls, ∀ r, x.2 = .ret r →
    ∃ j, r = .job j ∧ j.token < set.total ∧ cidrSetNth set j.token = some j.addr
  distinct : ∀ (i j : Nat) (x y : Nat × SweepPc) (jx jy : Job), c.calls[i]? = some x →
    c.calls[j]? = some y → x.2.job = some jx → y.2.job = some jy → jx.token = jy.token → i = j

theorem job_ret {pc : SweepPc} {j : Job} (h : pc.job = some j) : pc = .ret (.job j) := by
  cases pc with
  | ret r =>
    cases r with
    | job k =>
      obtain rfl := Option.some.inj h
      rfl
    | _ => simp [SweepPc.job] at h
  | _ => simp [SweepPc.job] at h

section Ok

variable {set : CidrSet} {plan : ScanPlan} {s₀ : CfScan} (hset : set.SealedV4)
  (hr : SweepReady set plan s₀) {c : SweepState}

include hr in
theorem DrawnInv.ok (h : DrawnInv s₀ c) : SweepOk set c := by
  obtain ⟨cl, hinv⟩ := h.draws
  constructor
  · intro x hx r hret
    obtain ⟨j, rfl, hnth⟩ := h.answered x hx r hret
    have hmem : (x.1, x.2.toDraw) ∈ c.draws.calls := List.mem_map_of_mem hx
    rw [hret] at hmem
    obtain ⟨v, hv, heq⟩ := hinv.returned hr.ready hmem rfl
    obtain rfl := Option.some.inj (DrawPc.done.inj heq)
    rw [hr.total] at hv
    rw [hr.set_eq] at hnth
    exact ⟨j, rfl, hv, hnth⟩
  · intro i j x y jx jy hi hj hx hy htok
    refine hinv.distinct i j _ _ jx.token (draws_get hi) (draws_get hj) ?_ ?_
    · rw [job_ret hx]
      rfl
    · rw [job_ret hy, htok]
      rfl

include hset hr in
theorem PermutedInv.ok (hplan : plan.plannedAddresses ≤ set.total) (h : PermutedInv s₀ c) :
    SweepOk set c := by
  obtain ⟨seed, hseed⟩ := hr.uniform
  have htotal := hset.total_le
  have h64 : set.total ≤ 2 ^ 64 := by omega
  have hset₀ : s₀.set.SealedV4 := by rw [hr.set_eq]; exact hset
  have hbelow : ∀ x ∈ c.calls, x.1 < set.total := by
    intro x hx
    have := h.planned x hx
    rw [hr.plan_eq] at this
    omega
  have hpick : ∀ x ∈ c.calls, ∀ r, x.2 = .ret r → ∃ a, r = .job ⟨a, 443, .tcp, permApply s₀.uniform x.1⟩ ∧
      permApply s₀.uniform x.1 < set.total ∧ cidrSetNth set (permApply s₀.uniform x.1) = some a := by
    intro x hx r hret
    have hlt : permApply s₀.uniform x.1 < set.total := by
      rw [hseed]
      exact permApply_lt seed h64 (hbelow x hx)
    obtain ⟨a, hnth, hjob⟩ := sweepPick_some hset₀ (by rw [hr.set_eq]; exact hlt)
    rw [hr.set_eq] at hnth
    rcases h.points x hx with hpc | hpc
    · rw [hret] at hpc
      simp at hpc
    · rw [hret, hjob] at hpc
      exact ⟨a, SweepPc.ret.inj hpc, hlt, hnth⟩
  constructor
  · intro x hx r hret
    obtain ⟨a, rfl, hlt, hnth⟩ := hpick x hx r hret
    exact ⟨_, rfl, hlt, hnth⟩
  · intro i j x y jx jy hi hj hx hy htok
    have hxm := List.mem_of_getElem? hi
    have hym := List.mem_of_getElem? hj
    obtain ⟨a, ha, -⟩ := hpick x hxm _ (job_ret hx)
    obtain ⟨b, hb, -⟩ := hpick y hym _ (job_ret hy)
    obtain rfl := TaskNext.job.inj ha
    obtain rfl := TaskNext.job.inj hb
    dsimp only at htok
    rw [hseed] at htok
    have hfst := permApply_injective seed h64 (hbelow x hxm) (hbelow y hym) htok
    obtain ⟨hlt, -⟩ := List.getElem?_eq_some_iff.mp hi
    refine (List.getElem?_inj (by simpa using hlt) h.indices).mp ?_
    rw [List.getElem?_map, List.getElem?_map, hi, hj, Option.map_some, Option.map_some, hfst]

include hset

theorem SweepOk.mem_addrs (h : SweepOk set c) {a : Addr} (ha : a ∈ c.produced) : a ∈ set.addrs := by
  obtain ⟨x, hx, hxa⟩ := List.mem_filterMap.mp ha
  obtain ⟨j, hj, rfl⟩ := Option.map_eq_some_iff.mp hxa
  obtain ⟨k, hk, hlt, hnth⟩ := h.jobs x hx _ (job_ret hj)
  obtain rfl := TaskNext.job.inj hk
  rw [hset.sealed.nth_eq] at hnth
  exact List.mem_of_getElem? hnth

theorem SweepOk.produced_nodup (h : SweepOk set c) : c.produced.Nodup := by
  refine ListSum.nodup_filterMap fun i j x y v hi hj hx hy => ?_
  obtain ⟨jx, hjx, rfl⟩ := Option.map_eq_some_iff.mp hx
  obtain ⟨jy, hjy, hxy⟩ := Option.map_eq_some_iff.mp hy
  obtain ⟨_, hkx, hltx, hnthx⟩ := h.jobs x (List.mem_of_getElem? hi) _ (job_ret hjx)
  obtain ⟨_, hky, hlty, hnthy⟩ := h.jobs y (List.mem_of_getElem? hj) _ (job_ret hjy)
  obtain rfl := TaskNext.job.inj hkx
  obtain rfl := TaskNext.job.inj hky
  refine h.distinct i j x y jx jy hi hj hjx hjy ?_
  rw [hset.sealed.nth_eq] at hnthx
  rw [hset.sealed.nth_eq, hxy] at hnthy
  exact (List.getElem?_inj (by rw [hset.sealed.length_addrs]; exact hltx) hset.sealed.nodup).mp (hnthx.trans hnthy.symm)

/-- With as many answers as the set has addresses, every address has been produced. -/
theorem SweepOk.produced_perm (h : SweepOk set c) (hlen : c.calls.length = set.total)
    (hall : ∀ x ∈ c.calls, x.2.returned = true) : c.produced.Perm set.addrs := by
  have hlength : c.produced.length = set.total := by
    unfold SweepState.produced
    rw [List.length_filterMap_eq_countP, ← hlen, List.countP_eq_length]
    intro x hx
    have hret := hall x hx
    obtain ⟨idx, pc⟩ := x
    cases pc with
    | ret r =>
      obtain ⟨j, rfl, -⟩ := h.jobs _ hx r rfl
      rfl
    | _ => simp [SweepPc.returned] at hret
  refine (List.subperm_of_subset (h.produced_nodup hset) fun a ha => h.mem_addrs hset ha).perm_of_length_le ?_
  rw [hlength, hset.sealed.length_addrs]

end Ok

end Qanat
