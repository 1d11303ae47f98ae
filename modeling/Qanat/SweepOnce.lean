import Qanat.SweepCoverage

namespace Qanat

open Transition

/-- How many operations a call of `cf_next_sweep` can still perform. -/
def sweepRank (t : Bandit) : SweepPc → Nat
  | .start _ => drawOps t + 1
  | .draw pc => drawRank t.n t.probe pc
  | .ret _ => 0

theorem afterDraw_rank (t : Bandit) (s : CfScan) (pc : DrawPc) :
    sweepRank t (afterDraw s pc) ≤ drawRank t.n t.probe pc := by
  cases pc with
  | done result => cases result <;> exact Nat.zero_le _
  | _ => exact le_refl _

theorem execSweep_rank {s s' : CfScan} {pc pc' : SweepPc} (h : execSweep s pc = some (s', pc')) :
    sweepRank s.bandit pc' < sweepRank s.bandit pc := by
  cases pc with
  | start idx =>
    obtain ⟨-, rfl⟩ := Prod.mk.inj (Option.some.inj h)
    have hzero : sweepRank s.bandit (.draw (.start idx)) = drawOps s.bandit := rfl
    split
    next => exact Nat.succ_pos _
    next =>
      split
      next => exact Nat.succ_pos _
      next =>
        split
        next => exact Nat.succ_pos _
        next => exact hzero ▸ Nat.lt_succ_self _
  | draw pc =>
    simp only [execSweep] at h
    split at h
    next => simp at h
    next t q hdraw =>
      obtain ⟨-, rfl⟩ := Prod.mk.inj (Option.some.inj h)
      exact Nat.lt_of_le_of_lt (afterDraw_rank s.bandit s q) (execDraw_rank hdraw)
  | ret => simp [execSweep] at h

/-- What every state of a sweep satisfies. -/
structure SweepRunInv (s₀ : CfScan) (acts : List DrawAct) (c : SweepState) : Prop where
  inv : if s₀.permuted then PermutedInv s₀ c else DrawnInv s₀ c
  same : s₀.bandit.Same c.scan.bandit
  paid : Allowance.Paid (fun x : Nat × SweepPc => sweepRank s₀.bandit x.2) (drawOps s₀.bandit + 1)
    DrawAct.exec acts c.calls

theorem sweepStep_same {s₀ : CfScan} {c c' : SweepState} {a : DrawAct} (h : s₀.bandit.Same c.scan.bandit)
    (hstep : sweepStep c a = some c') : s₀.bandit.Same c'.scan.bandit := by
  cases a with
  | call idx =>
    simp only [sweepStep] at hstep
    split at hstep
    next =>
      obtain rfl := Option.some.inj hstep
      exact h
    next => simp at hstep
  | exec i =>
    simp only [sweepStep] at hstep
    split at hstep
    next => simp at hstep
    next idx pc hi =>
      split at hstep
      next => simp at hstep
      next s pc' hexec =>
        obtain rfl := Option.some.inj hstep
        cases pc with
        | start k =>
          obtain ⟨rfl, -⟩ := Prod.mk.inj (Option.some.inj hexec)
          exact h
        | draw pc =>
          simp only [execSweep] at hexec
          split at hexec
          next => simp at hexec
          next t q hdraw =>
            obtain ⟨rfl, -⟩ := Prod.mk.inj (Option.some.inj hexec)
            exact execDraw_same h hdraw
        | ret => simp [execSweep] at hexec
  | report index good =>
    obtain rfl := Option.some.inj hstep
    exact h.report index good

theorem sweepStep_paid {s₀ : CfScan} {acts : List DrawAct} {c c' : SweepState} {a : DrawAct}
    (h : s₀.bandit.Same c.scan.bandit)
    (hpaid : Allowance.Paid (fun x : Nat × SweepPc => sweepRank s₀.bandit x.2) (drawOps s₀.bandit + 1)
      DrawAct.exec acts c.calls) (hstep : sweepStep c a = some c') :
    Allowance.Paid (fun x : Nat × SweepPc => sweepRank s₀.bandit x.2) (drawOps s₀.bandit + 1)
      DrawAct.exec (acts ++ [a]) c'.calls := by
  cases a with
  | call idx =>
    simp only [sweepStep] at hstep
    split at hstep
    next =>
      obtain rfl := Option.some.inj hstep
      exact hpaid.start (by simp) (le_refl _)
    next => simp at hstep
  | exec i =>
    simp only [sweepStep] at hstep
    split at hstep
    next => simp at hstep
    next idx pc hi =>
      split at hstep
      next => simp at hstep
      next s pc' hexec =>
        obtain rfl := Option.some.inj hstep
        have hrank := execSweep_rank hexec
        have heq (q : SweepPc) : sweepRank c.scan.bandit q = sweepRank s₀.bandit q := by
          rw [h]
          cases q <;> rfl
        rw [heq, heq] at hrank
        exact hpaid.move (fun _ _ => DrawAct.exec.inj) hi hrank
  | report index good =>
    obtain rfl := Option.some.inj hstep
    exact hpaid.other (by simp)

section Run

variable {set : CidrSet} {plan : ScanPlan} {s₀ : CfScan} (hset : set.SealedV4)
  (hplan : plan.plannedAddresses ≤ set.total) (hr : SweepReady set plan s₀)
include hset hplan hr

theorem sweepRunInv_run {acts : List DrawAct} {c : SweepState}
    (hrun : Run sweepStep SweepScored ⟨s₀, []⟩ acts c) : SweepRunInv s₀ acts c := by
  induction hrun with
  | nil =>
    refine ⟨?_, rfl, Allowance.Paid.nil⟩
    split
    next => exact ⟨rfl, by simp, by simp, by simp⟩
    next => exact drawnInv_init hr
  | snoc _ hg hstep ih =>
    refine ⟨?_, sweepStep_same ih.same hstep, sweepStep_paid ih.same ih.paid hstep⟩
    have hinv := ih.inv
    cases hperm : s₀.permuted with
    | true =>
      rw [hperm, if_pos rfl] at hinv
      exact permutedInv_step hperm hr.unraised hinv hstep
    | false =>
      rw [hperm, if_neg (by simp)] at hinv
      exact drawnInv_step hset hr hperm hplan hinv hg hstep

theorem SweepRunInv.ok {acts : List DrawAct} {c : SweepState} (h : SweepRunInv s₀ acts c) :
    SweepOk set c := by
  have hinv := h.inv
  split at hinv
  next => exact hinv.ok hset hr hplan
  next => exact hinv.ok hr

omit hset hplan hr in
/-- A call that has not returned always has a next operation. -/
theorem SweepRunInv.progress {acts : List DrawAct} {c : SweepState} (h : SweepRunInv s₀ acts c)
    {i : Nat} {x : Nat × SweepPc} (hi : c.calls[i]? = some x) (hret : x.2.returned = false) :
    ∃ c', sweepStep c (.exec i) = some c' := by
  obtain ⟨idx, pc⟩ := x
  have hmem := List.mem_of_getElem? hi
  obtain ⟨s', pc', hexec⟩ : ∃ s' pc', execSweep c.scan pc = some (s', pc') := by
    cases pc with
    | start => exact ⟨_, _, rfl⟩
    | draw pc =>
      have hinv := h.inv
      split at hinv
      next =>
        rcases hinv.points _ hmem with hpc | hpc
        · exact absurd hpc (by simp)
        · exact absurd hpc (by simp)
      next =>
        obtain ⟨cl, hdraw⟩ := hinv.draws
        obtain ⟨t, q, hq⟩ := execDraw_some c.scan.bandit (hinv.going _ hmem pc rfl)
          (hdraw.no_fault (List.mem_of_getElem? (draws_get hi)))
        exact ⟨_, _, by simp only [execSweep, hq]; rfl⟩
    | ret => simp [SweepPc.returned] at hret
  exact ⟨⟨s', c.calls.set i (idx, pc')⟩, by simp [sweepStep, hi, hexec]⟩

end Run

/-- A sweep covers its set: in every run that scores no block whose two counters are zero. -/
theorem cfNextSweep_covers {cap : Nat} {skipEdges : Bool} {ps : List Prefix} {loaded : CidrSet}
    {request : ScanRequest} {plan : ScanPlan} {seed : UInt64} {s₀ : CfScan}
    (hload : ps.foldlM cidrSetAdd (cidrSetInit cap skipEdges) = some loaded)
    (hv4 : ∀ p ∈ ps, ∃ a, p.net = .v4 a)
    (hplan : scanPlanResolve request (cidrSetSeal loaded).total = .ok plan)
    (hinit : cfScanInit (cidrSetSeal loaded) plan seed = some s₀) {acts : List DrawAct} {c : SweepState}
    (hrun : Run sweepStep SweepScored ⟨s₀, []⟩ acts c) :
    (∀ i x, c.calls[i]? = some x → x.2.returned = false → ∃ c', sweepStep c (.exec i) = some c') ∧
    (∀ i, acts.count (.exec i) ≤ drawOps s₀.bandit + 1) ∧
    (∀ x ∈ c.calls, ∀ r, x.2 = .ret r → ∃ j, r = .job j) ∧
    c.produced.Nodup ∧
    (∀ a ∈ c.produced, (cidrSetSeal loaded).Contains a) ∧
    (plan.plannedAddresses = (cidrSetSeal loaded).total → c.calls.length = plan.plannedAddresses →
      (∀ x ∈ c.calls, x.2.returned = true) →
      ∀ a, a ∈ c.produced ↔ (cidrSetSeal loaded).Contains a) := by
  have hset := cidrSetSeal_sealed (addAll_canonV4 hv4 hload)
  have hvalid := scanPlanResolve_valid hplan
  have hr := cfScanInit_ready hset.total_le hvalid hinit
  have h := sweepRunInv_run hset hvalid.planned_le hr hrun
  have hok := h.ok hset hvalid.planned_le hr
  refine ⟨fun i x hi hret => h.progress hi hret, h.paid.count_le, ?_, hok.produced_nodup hset,
    fun a ha => hset.mem_addrs.mp (hok.mem_addrs hset ha), ?_⟩
  · intro x hx r hret
    obtain ⟨j, hj, -⟩ := hok.jobs x hx r hret
    exact ⟨j, hj⟩
  · intro heq hlen hall a
    rw [← hset.mem_addrs]
    exact (hok.produced_perm hset (hlen.trans heq) hall).mem_iff

def lonePrefix (bits count : Nat) : Prefix :=
  ⟨.v4 0x01010100, bits, count⟩

theorem seal_lone (bits count : Nat) (h : prefixHosts (lonePrefix bits count) = count) (hc : count < 2 ^ 64) :
    cidrSetSeal ⟨[lonePrefix bits count], 1, none, 0, false⟩ =
      ⟨[lonePrefix bits count], 1, some [count], count, false⟩ := by
  have hnorm : normalizePrefixes false [lonePrefix bits count] = [lonePrefix bits count] := by
    simp [normalizePrefixes, normalizeStep, topContains, mergeDown]
  have husable : prefixUsable (lonePrefix bits count) false = count := by
    simp [prefixUsable, h]
  simp only [cidrSetSeal, hnorm, cumsumFrom, husable]
  rw [if_neg (by omega)]
  simp

/-- A request to go on until so many addresses have answered. -/
def reachableRequest (target : Nat) : ScanRequest :=
  ⟨.reachable, .adaptive, 100000, 20, 0, target⟩

theorem execSweep_alone {s s' : CfScan} {idx : Nat} {pc pc' : SweepPc}
    (h : execSweep s pc = some (s', pc')) :
    sweepStep ⟨s, [(idx, pc)]⟩ (.exec 0) = some ⟨s', [(idx, pc')]⟩ := by
  simp [sweepStep, h]

/-- Two prefixes in no particular order, three addresses in all. -/
def pairPrefixes : List Prefix :=
  [⟨.v4 0x01010104, 31, 2⟩, ⟨.v4 0x01010101, 32, 1⟩]

theorem seal_pair (cap total : Nat) : cidrSetSeal ⟨pairPrefixes, cap, none, total, false⟩ =
    ⟨[⟨.v4 0x01010101, 32, 1⟩, ⟨.v4 0x01010104, 31, 2⟩], cap, some [1, 3], 3, false⟩ := by
  have hnorm : normalizePrefixes false pairPrefixes =
      [⟨.v4 0x01010101, 32, 1⟩, ⟨.v4 0x01010104, 31, 2⟩] := by
    rw [normalizePrefixes, pairPrefixes, mergeSort_pair]
    decide
  simp only [cidrSetSeal, hnorm]
  rfl

/-- Three calls of one sweep: the last one scores the blocks while the other two draw, and two reports come in
between. -/
def pairActs : List DrawAct :=
  [[.call 0, .call 2, .exec 0, .exec 1, .exec 1, .exec 1, .call 1, .exec 2, .exec 2],
    List.replicate 6 (.exec 1), [.report 0 true, .report 2 false, .exec 0],
    List.replicate 148 (.exec 2), [.exec 0], List.replicate 141 (.exec 1)].flatten

theorem cfNextSweep_contended : ∃ (loaded : CidrSet) (plan : ScanPlan) (s₀ : CfScan) (c : SweepState),
    pairPrefixes.foldlM cidrSetAdd (cidrSetInit 4 false) = some loaded ∧
    scanPlanResolve (reachableRequest 3) (cidrSetSeal loaded).total = .ok plan ∧
    cfScanInit (cidrSetSeal loaded) plan 0 = some s₀ ∧
    Run sweepStep SweepScored ⟨s₀, []⟩ pairActs c ∧
    c.produced.Nodup ∧ ∀ a, a ∈ c.produced ↔ (cidrSetSeal loaded).Contains a := by
  have hload : pairPrefixes.foldlM cidrSetAdd (cidrSetInit 4 false) =
      some ⟨pairPrefixes, 4, none, 0, false⟩ := rfl
  have hseal := seal_pair 4 0
  obtain ⟨plan, hplan⟩ : ∃ plan, scanPlanResolve (reachableRequest 3) 3 = .ok plan := ⟨_, rfl⟩
  obtain ⟨s₀, hinit⟩ : ∃ s₀, cfScanInit (cidrSetSeal ⟨pairPrefixes, 4, none, 0, false⟩) plan 0 = some s₀ := by
    rw [hseal]
    obtain rfl := Except.ok.inj hplan
    exact ⟨_, rfl⟩
  have hacts : (pairActs.foldlM (guarded sweepStep SweepScored) ⟨s₀, []⟩).map
      (fun c => (c.calls.length, c.calls.all fun x => x.2.returned)) = some (3, true) := by
    rw [hseal] at hinit
    obtain rfl := Except.ok.inj hplan
    obtain rfl := Option.some.inj hinit
    decide +kernel
  obtain ⟨c, hc, hend⟩ := Option.map_eq_some_iff.mp hacts
  obtain ⟨hlength, hall⟩ := Prod.mk.inj hend
  have hrun : Run sweepStep SweepScored ⟨s₀, []⟩ pairActs c := Run.nil.decided hc
  have hplanned : plan.plannedAddresses = 3 := by
    obtain rfl := Except.ok.inj hplan
    rfl
  have htotal : (cidrSetSeal ⟨pairPrefixes, 4, none, 0, false⟩).total = 3 := by rw [hseal]
  have hv4 : ∀ p ∈ pairPrefixes, ∃ a, p.net = .v4 a := by simp [pairPrefixes]
  have hcovers := cfNextSweep_covers hload hv4 (by rw [htotal]; exact hplan) hinit hrun
  exact ⟨_, plan, s₀, c, hload, by rw [htotal]; exact hplan, hinit, hrun, hcovers.2.2.2.1,
    hcovers.2.2.2.2.2 (hplanned.trans htotal.symm) (hlength.trans hplanned.symm)
      (List.all_eq_true.mp hall)⟩

/-- The reports of a sweep can take a block's counters round to zero, and the next call that scores
the block divides by zero instead of returning a job. -/
theorem cfNextSweep_fault : ∃ (s₀ : CfScan) (plan : ScanPlan) (c : SweepState),
    scanPlanResolve (reachableRequest 2) 2 = .ok plan ∧
    cfScanInit (cidrSetSeal ⟨[lonePrefix 31 2], 1, none, 0, false⟩) plan 0 = some s₀ ∧
    Reach sweepStep (fun _ _ => True) ⟨s₀, []⟩ c ∧ c.calls = [(1, .draw .fault)] := by
  have hseal := seal_lone 31 2 rfl (by decide)
  obtain ⟨plan, hplan⟩ : ∃ plan, scanPlanResolve (reachableRequest 2) 2 = .ok plan := ⟨_, rfl⟩
  obtain ⟨s₀, hinit⟩ : ∃ s₀, cfScanInit ⟨[lonePrefix 31 2], 1, some [2], 2, false⟩ plan 0 = some s₀ := by
    obtain rfl := Except.ok.inj hplan
    exact ⟨_, rfl⟩
  obtain ⟨hfull, hplanned, hpermuted, hn, htotal, hspan, hprobe, hexact, hE, hissued, hb⟩ :
      s₀.full = false ∧ s₀.plan.plannedAddresses = 2 ∧ s₀.permuted = false ∧ s₀.bandit.n = 1 ∧
      s₀.bandit.total = 2 ∧ s₀.bandit.span = 256 ∧ s₀.bandit.probe = 48 ∧
      s₀.bandit.exactExplore = true ∧ s₀.bandit.exploreTotal = 1 ∧ s₀.bandit.issued = 0 ∧
      s₀.bandit.b 0 = ⟨1, 1, 1⟩ := by
    obtain rfl := Except.ok.inj hplan
    obtain rfl := Option.some.inj hinit
    exact ⟨rfl, rfl, rfl, rfl, rfl, rfl, rfl, rfl, rfl, rfl, rfl⟩
  obtain ⟨k, hk⟩ : ∃ k, (1 : UInt32) + UInt32.ofNat k = 0 := ⟨2 ^ 32 - 1, by decide⟩
  obtain ⟨hsame, hzero⟩ := reportedBoth_spec (t := s₀.bandit) (by omega) (by omega) (by rw [hb]; exact ⟨rfl, rfl⟩) hk
  generalize hw : reportedBoth k s₀.bandit = t at hsame hzero
  rw [hb] at hzero
  let s : CfScan := { s₀ with bandit := t }
  have hreports : Reach sweepStep (fun _ _ => True) ⟨s₀, []⟩ ⟨s, []⟩ := by
    have hone (good : Bool) {u : Bandit}
        (hu : Reach sweepStep (fun _ _ => True) ⟨s₀, []⟩ ⟨{ s₀ with bandit := u }, []⟩) :
        Reach sweepStep (fun _ _ => True) ⟨s₀, []⟩
          ⟨{ s₀ with bandit := (banditReport · 0 good)^[k] u }, []⟩ :=
      Reach.iterate (f := fun u => SweepState.mk { s₀ with bandit := u } [])
        (a := DrawAct.report 0 good) (fun _ => trivial) (fun _ => rfl) hu k
    have := hone false (hone true Reach.refl)
    change Reach sweepStep _ _ ⟨{ s₀ with bandit := reportedBoth k s₀.bandit }, []⟩ at this
    rw [hw] at this
    exact this
  have hcall : Reach sweepStep (fun _ _ => True) ⟨s₀, []⟩ ⟨s, [(1, .start 1)]⟩ :=
    hreports.tail (a := .call 1) trivial (by simp [sweepStep, s, hplanned])
  have hanswer : execSweep s (.start 1) = some (s, .draw (.start 1)) := by
    have hopen : s.full = false := hfull
    have hmore : ¬s.plan.plannedAddresses ≤ 1 := by
      change ¬s₀.plan.plannedAddresses ≤ 1
      omega
    have hdrawn : s.permuted = false := hpermuted
    simp only [execSweep, hopen, hdrawn, if_neg hmore, Bool.false_eq_true, if_false]
  have hstart : Reach sweepStep (fun _ _ => True) ⟨s₀, []⟩ ⟨s, [(1, .draw (.start 1))]⟩ :=
    hcall.tail trivial (execSweep_alone hanswer)
  obtain ⟨rng, hattempt⟩ : ∃ rng, drawStart t 1 = .attempt 0 rng := by
    rw [hsame]
    simp [drawStart, htotal, hissued, hexact, hE]
  have hroom : ¬blockSpan t 0 ≤ (t.b 0).drawn.toNat := by
    rw [hzero, hsame]
    simp [blockSpan, htotal, hspan]
  have hfault := attempt_faults (t := t) (by rw [hsame]; exact hn) (by rw [hsame]; exact hprobe) hroom
    (by rw [hzero]; exact ⟨rfl, rfl⟩) rng
  have hquiet {p q : DrawPc} (hp : Reach sweepStep (fun _ _ => True) ⟨s₀, []⟩ ⟨s, [(1, .draw p)]⟩)
      (hpq : QuietStep t p q) : Reach sweepStep (fun _ _ => True) ⟨s₀, []⟩ ⟨s, [(1, .draw q)]⟩ := by
    have hafter : afterDraw s q = .draw q := by
      cases q <;> first | rfl | exact absurd hpq.2 (by simp [DrawPc.returned])
    refine hp.tail trivial (execSweep_alone ?_)
    simp only [execSweep, s, hpq.1]
    rw [← hafter]
  have hend : ∀ q, Relation.ReflTransGen (QuietStep t) (.attempt 0 rng) q →
      Reach sweepStep (fun _ _ => True) ⟨s₀, []⟩ ⟨s, [(1, .draw q)]⟩ := by
    intro q hq
    induction hq with
    | refl => exact hquiet hstart ⟨by simp only [execDraw, hattempt], rfl⟩
    | tail _ hpq ih => exact hquiet ih hpq
  rw [← hseal] at hinit
  exact ⟨s₀, plan, _, hplan, hinit, hend _ hfault, rfl⟩

end Qanat
