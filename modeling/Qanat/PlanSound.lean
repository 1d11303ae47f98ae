import Qanat.PlanResolve
import Qanat.General.Outcome

namespace Qanat

/-- The least multiple of `page` that is at least `bytes`. -/
def pageCeil (page bytes : Nat) : Nat :=
  (bytes + (page - 1)) / page * page

structure PlanScoped (env : PlanEnv) (plan : ResourcePlan) : Prop where
  total : plan.totalAddresses = env.totalAddresses
  planned_pos : 1 ≤ plan.plannedAddresses
  planned_le : plan.plannedAddresses ≤ plan.totalAddresses
  exact : plan.exactFull = true → plan.plannedAddresses = plan.totalAddresses
  target : plan.mode ≠ .reachable → plan.reachableTarget = 0

structure PlanFits (env : PlanEnv) (plan : ResourcePlan) : Prop where
  limit : plan.fdLimit = env.fdLimit
  scan_pos : 1 ≤ plan.scanConcurrency
  verify_pos : 1 ≤ plan.verifyConcurrency
  stability_pos : 1 ≤ plan.stabilityConcurrency
  verify_fit : plan.verifyConcurrency + plan.stabilityConcurrency ≤ plan.fdLimit - planFdReserve
  scan_fit : plan.scanConcurrency ≤ plan.fdLimit - planFdReserve
  fds_le : plan.estimatedFds ≤ plan.fdLimit

structure PlanCounts (plan : ResourcePlan) : Prop where
  candidate_le : plan.candidateCapacity ≤ 2 ^ 32 - 1
  target_le : plan.reachableTarget ≤ plan.candidateCapacity
  finalist_le : plan.finalistLimit ≤ plan.candidateCapacity
  output_pos : 1 ≤ plan.outputLimit
  output_le : plan.outputLimit ≤ plan.finalistLimit
  batch_pos : 1 ≤ plan.verificationBatchSize
  batch_le : plan.verificationBatchSize ≤ plan.finalistLimit

/-- The estimates are exact. -/
structure PlanEstimated (env : PlanEnv) (plan : ResourcePlan) : Prop where
  candidate : plan.estimatedCandidateBytes =
    pageCeil env.page (plan.candidateCapacity * env.candidateBytes + env.candidateFixedBytes)
  verifier : plan.estimatedVerifierBytes = (plan.verifyConcurrency + plan.stabilityConcurrency) * env.verifierSlotBytes +
    plan.verificationBatchSize * env.verifierResultBytes + env.verifierFixedBytes
  tunnel : plan.estimatedTunnelBytes = if plan.tunnelEnabled then plan.tunnelConcurrency *
    (env.verifierSlotBytes + env.verifierResultBytes + env.verifierFixedBytes + planTunnelWorkerBytes) else 0
  working : plan.estimatedWorkingBytes = pageCeil env.page env.workingBytes
  sum : plan.estimatedTotalBytes = plan.estimatedCandidateBytes +
    max plan.estimatedVerifierBytes plan.estimatedTunnelBytes + plan.estimatedWorkingBytes

section Scope

theorem coverageCount_pos {total ppm count : Nat} (h : coverageCount total ppm = some count) : 1 ≤ count := by
  unfold coverageCount at h
  split at h
  next => simp at h
  next hcond =>
    push Not at hcond
    obtain ⟨htotal, hppm, -⟩ := hcond
    split at h
    next whole scaled hwhole hscaled =>
      have hw := mulU64_some hwhole
      have hs := mulU64_some hscaled
      have hc := addU64_some h
      by_cases hz : total / coverageScale = 0
      · have hrem : total % coverageScale ≠ 0 := by
          have := Nat.div_add_mod total coverageScale
          rw [hz] at this
          omega
        have hpos : 0 < scaled := by
          rw [← hs]
          exact Nat.mul_pos (by omega) (by omega)
        unfold coverageScale at *
        split at hc
        next => omega
        next => omega
      · have hpos : 0 < whole := by
          rw [← hw]
          exact Nat.mul_pos (Nat.pos_of_ne_zero hz) (by omega)
        rw [← hc]
        exact Nat.le_add_right_of_le hpos
    next => simp at h

/-- What the scope adds to a valid plan. -/
theorem scopeOf_scoped {request : ScanRequest} {total : Nat} {plan plan' : ScanPlan}
    (h : scopeOf request total plan = .ok plan') (htotal : 0 < total) (htarget : plan.reachableTarget = 0) :
    1 ≤ plan'.plannedAddresses ∧ (plan'.mode ≠ .reachable → plan'.reachableTarget = 0) := by
  unfold scopeOf at h
  split at h
  next =>
    obtain rfl := Except.ok.inj h
    exact ⟨htotal, fun _ => htarget⟩
  next =>
    split at h
    next => simp at h
    next planned hcount =>
      have hpos := coverageCount_pos hcount
      split at h
      next =>
        obtain rfl := Except.ok.inj h
        exact ⟨hpos, fun _ => htarget⟩
      next =>
        obtain rfl := Except.ok.inj h
        exact ⟨hpos, fun _ => htarget⟩
  next =>
    split at h
    next => simp at h
    next hb =>
      obtain rfl := Except.ok.inj h
      refine ⟨?_, fun _ => htarget⟩
      dsimp only
      split
      next => omega
      next => omega
  next hmode =>
    split at h
    next => simp at h
    next =>
      obtain rfl := Except.ok.inj h
      exact ⟨htotal, fun hne => absurd hmode hne⟩
  next => simp at h

theorem resolveScope_scoped {request : PlanRequest} {env : PlanEnv} {scope : ScanPlan}
    (h : resolveScope request.toScanRequest env.totalAddresses (planStart request env).toScanPlan = .ok scope)
    (htotal : env.totalAddresses ≠ 0) (hpercent : request.explorePercent ≤ 100) :
    PlanScoped env { planStart request env with toScanPlan := scope } := by
  have key : ∀ plan, plan.totalAddresses = env.totalAddresses → plan.exactFull = false → plan.explorePercent ≤ 100 →
      plan.reachableTarget = 0 → scopeOf request.toScanRequest env.totalAddresses plan = .ok scope →
      PlanScoped env { planStart request env with toScanPlan := scope } := by
    intro plan hsame hexact hpc htarget hscope
    have hv := scopeOf_valid hscope hsame hexact hpc
    obtain ⟨hpos, ht⟩ := scopeOf_scoped hscope (Nat.pos_of_ne_zero htotal) htarget
    exact ⟨hv.total_eq, hpos, hv.planned_le.trans hv.total_eq.ge, fun hx => (hv.exact hx).trans hv.total_eq.symm, ht⟩
  unfold resolveScope at h
  dsimp only at h
  split at h
  next =>
    split at h
    next => exact key _ rfl rfl hpercent rfl h
    next => exact key _ rfl rfl hpercent rfl h
  next => exact key _ rfl rfl hpercent rfl h

end Scope

section Concurrency

variable {request : PlanRequest} {env : PlanEnv} {plan plan' : ResourcePlan}

theorem clampConcurrency_bounds {value floor ceiling : Nat} (h : floor ≤ ceiling) :
    floor ≤ clampConcurrency value floor ceiling ∧ clampConcurrency value floor ceiling ≤ ceiling := by
  unfold clampConcurrency
  dsimp only
  split
  next =>
    split
    next => omega
    next => omega
  next =>
    split
    next => omega
    next => omega

theorem autoVerifyConcurrency_bounds (env : PlanEnv) :
    1 ≤ autoVerifyConcurrency env ∧ autoVerifyConcurrency env ≤ 64 := by
  unfold autoVerifyConcurrency
  cases env.mobile with
  | true =>
    have := @clampConcurrency_bounds (env.cpus * 4) 4 32 (by decide)
    simp only [if_true]
    omega
  | false =>
    have := @clampConcurrency_bounds (env.cpus * 4) 8 64 (by decide)
    simp only [Bool.false_eq_true, if_false]
    omega

theorem autoStabilityConcurrency_bounds (env : PlanEnv) :
    1 ≤ autoStabilityConcurrency env ∧ autoStabilityConcurrency env ≤ 512 := by
  unfold autoStabilityConcurrency
  cases env.mobile with
  | true =>
    have := @clampConcurrency_bounds (env.cpus * 32) 32 128 (by decide)
    simp only [if_true]
    omega
  | false =>
    have := @clampConcurrency_bounds (env.cpus * 32) 32 512 (by decide)
    simp only [Bool.false_eq_true, if_false]
    omega

theorem autoScanConcurrency_lt (env : PlanEnv) : autoScanConcurrency env < 2 ^ 32 :=
  Nat.mod_lt _ (by decide)

theorem fitVerifiers_fit {available verify : Nat} (h2 : 2 ≤ available) (hlt : available < 2 ^ 32) (hv : 1 ≤ verify) :
    1 ≤ (fitVerifiers available verify).1 ∧ 1 ≤ (fitVerifiers available verify).2 ∧
      (fitVerifiers available verify).1 + (fitVerifiers available verify).2 ≤ available := by
  unfold fitVerifiers
  dsimp only
  by_cases hva : verify < available
  · rw [if_pos hva, Nat.mod_eq_of_lt (by omega), if_neg (by omega)]
    exact ⟨hv, by omega, by omega⟩
  · rw [if_neg hva, if_pos (by omega), if_pos (by omega), Nat.mod_eq_of_lt (by omega)]
    exact ⟨by omega, le_refl _, by omega⟩

theorem verifiers_fit {available verify stability : Nat} (h2 : 2 ≤ available) (hv : 1 ≤ verify) (hs : 1 ≤ stability)
    (hlt : available < verify + stability → available < 2 ^ 32) :
    1 ≤ (if available < verify + stability then fitVerifiers available verify else (verify, stability)).1 ∧
    1 ≤ (if available < verify + stability then fitVerifiers available verify else (verify, stability)).2 ∧
    (if available < verify + stability then fitVerifiers available verify else (verify, stability)).1 +
      (if available < verify + stability then fitVerifiers available verify else (verify, stability)).2 ≤ available := by
  by_cases hover : available < verify + stability
  · rw [if_pos hover]
    exact fitVerifiers_fit h2 (hlt hover) hv
  · rw [if_neg hover]
    exact ⟨hv, hs, Nat.not_lt.mp hover⟩

theorem scan_fit {available scan : Nat} (h2 : 2 ≤ available) (hpos : 1 ≤ scan)
    (hlt : available < scan → available < 2 ^ 32) :
    1 ≤ (if available < scan then available % 2 ^ 32 else scan) ∧
    (if available < scan then available % 2 ^ 32 else scan) ≤ available := by
  by_cases hover : available < scan
  · rw [if_pos hover, Nat.mod_eq_of_lt (hlt hover)]
    omega
  · rw [if_neg hover]
    omega

theorem PlanEnv.availableFds_le (env : PlanEnv) (h : 2 ≤ env.availableFds) :
    env.availableFds ≤ env.fdLimit - planFdReserve ∧ planFdReserve + env.availableFds ≤ env.fdLimit := by
  unfold PlanEnv.availableFds at h ⊢
  split at h
  next hr =>
    rw [if_pos hr]
    omega
  next => omega

def PlanRequest.scanWanted (request : PlanRequest) (env : PlanEnv) : Nat :=
  if request.scanConcurrencyAuto then autoScanConcurrency env else request.scanConcurrency

def PlanRequest.verifyWanted (request : PlanRequest) (env : PlanEnv) : Nat :=
  if request.verifyConcurrencyAuto then autoVerifyConcurrency env else request.verifyConcurrency

def PlanRequest.stabilityWanted (request : PlanRequest) (env : PlanEnv) : Nat :=
  if request.stabilityConcurrencyAuto then autoStabilityConcurrency env else request.stabilityConcurrency

/-- Whether the verifier slots wanted are more than the descriptors allow. -/
def PlanRequest.overVerify (request : PlanRequest) (env : PlanEnv) : Prop :=
  env.availableFds < request.verifyWanted env + request.stabilityWanted env

instance (request : PlanRequest) (env : PlanEnv) : Decidable (request.overVerify env) :=
  inferInstanceAs (Decidable (_ < _))

def PlanRequest.verifiers (request : PlanRequest) (env : PlanEnv) : Nat × Nat :=
  if request.overVerify env then fitVerifiers env.availableFds (request.verifyWanted env)
  else (request.verifyWanted env, request.stabilityWanted env)

theorem resolveConcurrency_inv (h : resolveConcurrency request env plan = .ok plan') :
    (1 ≤ request.scanWanted env ∧ 1 ≤ request.verifyWanted env ∧ 1 ≤ request.stabilityWanted env) ∧
    2 ≤ env.availableFds ∧
    (request.overVerify env → request.verifyConcurrencyAuto = true ∧ request.stabilityConcurrencyAuto = true) ∧
    (env.availableFds < request.scanWanted env → request.scanConcurrencyAuto = true) ∧
    ∃ scan fds, scan = (if env.availableFds < request.scanWanted env then env.availableFds % 2 ^ 32
        else request.scanWanted env) ∧
      fds ≤ planFdReserve + max (max ((request.verifiers env).1 + (request.verifiers env).2) env.availableFds) scan ∧
      plan' = { plan with
        scanConcurrency := scan
        verifyConcurrency := (request.verifiers env).1
        stabilityConcurrency := (request.verifiers env).2
        autoAdjusted := plan.autoAdjusted || decide (request.overVerify env) ||
          decide (env.availableFds < request.scanWanted env)
        estimatedFds := fds } := by
  have hscan : (if request.scanConcurrencyAuto = true then autoScanConcurrency env else request.scanConcurrency) =
    request.scanWanted env := rfl
  have hverify : (if request.verifyConcurrencyAuto = true then autoVerifyConcurrency env
    else request.verifyConcurrency) = request.verifyWanted env := rfl
  have hstab : (if request.stabilityConcurrencyAuto = true then autoStabilityConcurrency env
    else request.stabilityConcurrency) = request.stabilityWanted env := rfl
  unfold resolveConcurrency at h
  dsimp only at h
  rw [hscan, hverify, hstab] at h
  split at h
  next => cases h
  next hpos =>
    split at h
    next => cases h
    next havail =>
      split at h
      next => cases h
      next tunnel htunnel =>
        split at h
        next => cases h
        next htun =>
          split at h
          next => cases h
          next hver =>
            split at h
            next => cases h
            next hsc =>
              obtain rfl := Except.ok.inj h
              refine ⟨?_, Nat.not_lt.mp havail, ?_, ?_, _, _, rfl, ?_, rfl⟩
              · omega
              · intro hover
                simpa using fun hc => hver ⟨hover, hc⟩
              · intro hover
                simpa using fun hc => hsc ⟨hover, hc⟩
              · exact Nat.add_le_add_left (max_le_max (max_le_max (Nat.le_refl _) (Nat.not_lt.mp htun)) (Nat.le_refl _)) _

theorem resolveConcurrency_ok (h : resolveConcurrency request env plan = .ok plan') : ∃ scan verify stability fds adjusted,
    plan' = { plan with
      scanConcurrency := scan, verifyConcurrency := verify, stabilityConcurrency := stability, estimatedFds := fds,
      autoAdjusted := adjusted } ∧
    1 ≤ scan ∧ 1 ≤ verify ∧ 1 ≤ stability ∧ verify + stability ≤ env.fdLimit - planFdReserve ∧
    scan ≤ env.fdLimit - planFdReserve ∧ fds ≤ env.fdLimit := by
  obtain ⟨⟨hscan, hverify, hstab⟩, havail, hver, hsc, scan, fds, hscaneq, hfds, rfl⟩ := resolveConcurrency_inv h
  have hverlt : request.overVerify env → env.availableFds < 2 ^ 32 := by
    intro hover
    obtain ⟨hva, hsa⟩ := hver hover
    unfold PlanRequest.overVerify PlanRequest.verifyWanted PlanRequest.stabilityWanted at hover
    rw [if_pos hva, if_pos hsa] at hover
    have := autoVerifyConcurrency_bounds env
    have := autoStabilityConcurrency_bounds env
    omega
  have hsclt : env.availableFds < request.scanWanted env → env.availableFds < 2 ^ 32 := by
    intro hover
    have hauto := hsc hover
    unfold PlanRequest.scanWanted at hover
    rw [if_pos hauto] at hover
    have := autoScanConcurrency_lt env
    omega
  obtain ⟨hv, hs, hsum⟩ := verifiers_fit havail hverify hstab hverlt
  obtain ⟨hpos, hfit⟩ := scan_fit havail hscan hsclt
  rw [← hscaneq] at hpos hfit
  obtain ⟨hle, htotal⟩ := env.availableFds_le havail
  refine ⟨_, _, _, _, _, rfl, hpos, hv, hs, Nat.le_trans hsum hle, Nat.le_trans hfit hle, ?_⟩
  have hmax : max (max ((request.verifiers env).1 + (request.verifiers env).2) env.availableFds) scan ≤
      env.availableFds := max_le (max_le hsum (Nat.le_refl _)) hfit
  omega

end Concurrency

section Memory

variable {request : PlanRequest} {env : PlanEnv} {plan plan' : ResourcePlan}

theorem pageCeil_of_mod {page bytes : Nat} (hpage : 0 < page) :
    pageCeil page bytes = if bytes % page = 0 then bytes else bytes + (page - bytes % page) := by
  have hsplit := Nat.div_add_mod bytes page
  have hlt := Nat.mod_lt bytes hpage
  unfold pageCeil
  by_cases hz : bytes % page = 0
  · have hsum : bytes + (page - 1) = page - 1 + page * (bytes / page) := by omega
    rw [if_pos hz, hsum, Nat.add_mul_div_left _ _ hpage, Nat.div_eq_of_lt (by omega), Nat.zero_add, Nat.mul_comm]
    omega
  · have hsum : bytes + (page - 1) = bytes % page - 1 + page * (bytes / page + 1) := by
      rw [Nat.mul_add]
      omega
    rw [if_neg hz, hsum, Nat.add_mul_div_left _ _ hpage, Nat.div_eq_of_lt (by omega), Nat.zero_add, Nat.mul_comm,
      Nat.mul_add]
    omega

theorem roundToPage_some {page bytes out : Nat} (hpage : 0 < page) (h : roundToPage page bytes = some out) :
    out = pageCeil page bytes := by
  rw [pageCeil_of_mod hpage]
  unfold roundToPage at h
  split at h
  next hc => rw [if_neg hc.2, addU64_some h]
  next hc =>
    have hz : bytes % page = 0 := by
      by_contra hne
      have : page = 1 := by omega
      rw [this] at hne
      omega
    rw [if_pos hz, Option.some.inj h]

theorem PlanEnv.page_pos (env : PlanEnv) : 0 < env.page := by
  unfold PlanEnv.page
  split
  next h => exact Nat.pos_of_ne_zero h
  next => decide

theorem candidateEstimate_some {out : Nat} (h : candidateEstimate plan env = some out) :
    out = plan.candidateCapacity * env.candidateBytes + env.candidateFixedBytes := by
  obtain ⟨candidate, hmul, hadd⟩ := Option.bind_eq_some_iff.mp h
  rw [← addU64_some hadd, ← mulU64_some hmul]

theorem verifierEstimate_some {out : Nat} (h : verifierEstimate plan env = some out) :
    out = (plan.verifyConcurrency + plan.stabilityConcurrency) * env.verifierSlotBytes +
      plan.verificationBatchSize * env.verifierResultBytes + env.verifierFixedBytes := by
  obtain ⟨slots, hslots, h⟩ := Option.bind_eq_some_iff.mp h
  obtain ⟨verifier, hverifier, h⟩ := Option.bind_eq_some_iff.mp h
  obtain ⟨results, hresults, h⟩ := Option.bind_eq_some_iff.mp h
  obtain ⟨both, hboth, h⟩ := Option.bind_eq_some_iff.mp h
  rw [← addU64_some h, ← addU64_some hboth, ← mulU64_some hresults, ← mulU64_some hverifier, ← addU64_some hslots]

theorem tunnelEstimate_some {out : Nat} (h : tunnelEstimate plan env = some out) :
    out = if plan.tunnelEnabled then plan.tunnelConcurrency *
      (env.verifierSlotBytes + env.verifierResultBytes + env.verifierFixedBytes + planTunnelWorkerBytes) else 0 := by
  unfold tunnelEstimate at h
  split at h
  next hon =>
    obtain ⟨a, ha, h⟩ := Option.bind_eq_some_iff.mp h
    obtain ⟨b, hb, h⟩ := Option.bind_eq_some_iff.mp h
    obtain ⟨c, hc, h⟩ := Option.bind_eq_some_iff.mp h
    rw [if_pos hon, ← mulU64_some h, ← addU64_some hc, ← addU64_some hb, ← addU64_some ha]
  next hoff => rw [if_neg hoff, Option.some.inj h]

theorem memoryEstimate_ok (h : memoryEstimate plan env = .ok plan') : ∃ candidate verifier tunnel working total,
    plan' = { plan with
      estimatedCandidateBytes := candidate, estimatedVerifierBytes := verifier, estimatedTunnelBytes := tunnel,
      estimatedWorkingBytes := working, estimatedTotalBytes := total } ∧ PlanEstimated env plan' := by
  unfold memoryEstimate at h
  split at h
  next candidate verifier hcandidate hverifier =>
    split at h
    next tunnel htunnel =>
      split at h
      next rounded working hrounded hworking =>
        split at h
        next part hpart =>
          split at h
          next total htotal =>
            obtain rfl := Except.ok.inj h
            refine ⟨_, _, _, _, _, rfl, ?_, verifierEstimate_some hverifier, tunnelEstimate_some htunnel,
              roundToPage_some env.page_pos hworking, ?_⟩
            · rw [roundToPage_some env.page_pos hrounded, candidateEstimate_some hcandidate]
            · have hmax : (if tunnel < verifier then verifier else tunnel) = max verifier tunnel := by
                split
                next hlt => rw [max_eq_left hlt.le]
                next hle => rw [max_eq_right (Nat.not_lt.mp hle)]
              rw [hmax] at hpart
              rw [← addU64_some htotal, ← addU64_some hpart]
          next => cases h
        next => cases h
      next => cases h
    next => cases h
  next => cases h

end Memory

section Counts

variable {request : PlanRequest} {env : PlanEnv} {plan plan' : ResourcePlan}

theorem resolveCandidates_ok (h : resolveCandidates request env plan = .ok plan') : ∃ candidate,
    plan' = { plan with candidateCapacity := candidate } ∧ 1 ≤ candidate ∧ candidate ≤ 2 ^ 32 - 1 ∧
    (plan.mode = .reachable → plan.reachableTarget ≤ candidate) ∧
    candidate = if request.candidateAuto then autoCandidates env plan else request.candidateCapacity := by
  unfold resolveCandidates at h
  dsimp only at h
  generalize (if request.candidateAuto then autoCandidates env plan else request.candidateCapacity) = candidate at h ⊢
  split at h
  next => cases h
  next hrange =>
    split at h
    next => cases h
    next htarget =>
      obtain rfl := Except.ok.inj h
      exact ⟨_, rfl, by omega, by omega, fun hm => Nat.not_lt.mp fun hc => htarget ⟨hm, hc⟩, rfl⟩

theorem resolveMemoryBudget_ok (h : resolveMemoryBudget request env plan = .ok plan') : ∃ budget,
    plan' = { plan with memoryBudgetBytes := budget } ∧
    budget = if request.memoryAuto then autoMemory env else request.memoryBudgetBytes := by
  unfold resolveMemoryBudget at h
  dsimp only at h
  generalize (if request.memoryAuto then autoMemory env else request.memoryBudgetBytes) = budget at h ⊢
  split at h
  next => cases h
  next =>
    obtain rfl := Except.ok.inj h
    exact ⟨_, rfl, rfl⟩

theorem resolveFinalists_ok (h : resolveFinalists request plan = .ok plan') : ∃ finalist all,
    plan' = { plan with finalistLimit := finalist, finalistsAll := all } ∧ 1 ≤ finalist ∧
    finalist ≤ plan.candidateCapacity ∧
    (request.finalistsAuto = false → request.finalistsAll = false → finalist = request.finalistLimit) := by
  unfold resolveFinalists at h
  dsimp only at h
  generalize hfin : (if request.finalistsAll then plan.candidateCapacity
    else if request.finalistsAuto then
      (if plan.candidateCapacity < (if plan.exactFull then 1024 else 256) then plan.candidateCapacity
        else (if plan.exactFull then 1024 else 256))
    else request.finalistLimit) = finalist at h
  split at h
  next => cases h
  next hrange =>
    obtain rfl := Except.ok.inj h
    refine ⟨_, _, rfl, by omega, by omega, fun hauto hall => ?_⟩
    rw [← hfin, hauto, hall]
    rfl

/-- The tunnel target that is asked for, where all finalists are tried at most. -/
def PlanRequest.tunnelWanted (request : PlanRequest) (finalist : Nat) : Nat :=
  if request.tunnelAll then finalist else request.tunnelTarget

theorem resolveTunnel_ok (h : resolveTunnel request plan = .ok plan') : ∃ target concurrency adjusted,
    plan' = { plan with tunnelTarget := target, tunnelConcurrency := concurrency, autoAdjusted := adjusted } ∧
    (plan.autoAdjusted = true → adjusted = true) ∧
    (request.tunnelEnabled = true → 1 ≤ target ∧ 1 ≤ concurrency ∧ concurrency ≤ target ∧
      target = min (request.tunnelWanted plan.finalistLimit) plan.finalistLimit ∧
      (plan.finalistLimit < request.tunnelWanted plan.finalistLimit → adjusted = true)) := by
  unfold resolveTunnel at h
  split at h
  next =>
    dsimp only at h
    rw [show (if request.tunnelAll = true then plan.finalistLimit else request.tunnelTarget) =
      request.tunnelWanted plan.finalistLimit from rfl] at h
    generalize request.tunnelWanted plan.finalistLimit = wanted at h ⊢
    have hmin : (if plan.finalistLimit < wanted then plan.finalistLimit else wanted) = min wanted plan.finalistLimit := by
      split
      next hlt => exact (Nat.min_eq_right (Nat.le_of_lt hlt)).symm
      next hle => exact (Nat.min_eq_left (Nat.not_lt.mp hle)).symm
    rw [hmin] at h
    have hconc : (if min wanted plan.finalistLimit < plan.tunnelConcurrency then min wanted plan.finalistLimit % 2 ^ 32
        else plan.tunnelConcurrency) ≤ min wanted plan.finalistLimit := by
      split
      next => exact Nat.mod_le _ _
      next hle => exact Nat.not_lt.mp hle
    generalize (if min wanted plan.finalistLimit < plan.tunnelConcurrency then min wanted plan.finalistLimit % 2 ^ 32
      else plan.tunnelConcurrency) = concurrency at h hconc
    split at h
    next => cases h
    next hpos =>
      obtain rfl := Except.ok.inj h
      refine ⟨_, _, _, rfl, fun hold => by simp [hold], fun _ => ⟨by omega, by omega, hconc, rfl, fun hlt => ?_⟩⟩
      rw [show decide (plan.finalistLimit < wanted) = true from decide_eq_true hlt, Bool.or_true, Bool.true_or]
  next hoff =>
    obtain rfl := Except.ok.inj h
    exact ⟨_, _, _, rfl, id, fun hon => absurd hon hoff⟩

theorem resolveOutput_ok (h : resolveOutput request plan = .ok plan') (hpos : 1 ≤ plan.finalistLimit) :
    ∃ output all adjusted, plan' = { plan with outputLimit := output, outputAll := all, autoAdjusted := adjusted } ∧
      1 ≤ output ∧ output ≤ plan.finalistLimit ∧ (plan.autoAdjusted = true → adjusted = true) ∧
      (request.outputAll = false → output = min request.outputLimit plan.finalistLimit ∧
        (plan.finalistLimit < request.outputLimit → adjusted = true)) := by
  unfold resolveOutput at h
  split at h
  next hall =>
    obtain rfl := Except.ok.inj h
    exact ⟨_, _, _, rfl, hpos, le_refl _, id, fun hno => absurd hall (by rw [hno]; exact Bool.false_ne_true)⟩
  next =>
    split at h
    next => cases h
    next hzero =>
      split at h
      next hlt =>
        obtain rfl := Except.ok.inj h
        exact ⟨_, _, _, rfl, hpos, le_refl _, fun _ => rfl, fun _ => ⟨(Nat.min_eq_right hlt.le).symm, fun _ => rfl⟩⟩
      next hle =>
        obtain rfl := Except.ok.inj h
        exact ⟨_, _, _, rfl, by omega, by omega, id,
          fun _ => ⟨(Nat.min_eq_left (Nat.not_lt.mp hle)).symm, fun hlt => absurd hlt hle⟩⟩

theorem resolveBatch_ok (h : resolveBatch plan = .ok plan') : ∃ batch,
    plan' = { plan with verificationBatchSize := batch } ∧ 1 ≤ batch ∧ batch ≤ plan.finalistLimit := by
  unfold resolveBatch at h
  dsimp only at h
  generalize (if plan.verifyConcurrency * 4 < 32 then 32 else plan.verifyConcurrency * 4) = wanted at h
  generalize hbatch : (if plan.finalistLimit < wanted then plan.finalistLimit else wanted) = batch at h
  split at h
  next => cases h
  next hrange =>
    obtain rfl := Except.ok.inj h
    refine ⟨_, rfl, by omega, ?_⟩
    rw [← hbatch]
    split
    next => exact le_refl _
    next hle => exact Nat.not_lt.mp hle

theorem pageCeil_le {page bytes limit : Nat} (hpage : 0 < page) (h : bytes ≤ limit - limit % page) :
    pageCeil page bytes ≤ limit := by
  have hsplit := Nat.div_add_mod limit page
  have hlt : bytes + (page - 1) < page * (limit / page + 1) := by
    rw [Nat.mul_add]
    omega
  have hdiv : (bytes + (page - 1)) / page ≤ limit / page := Nat.le_of_lt_succ (Nat.div_lt_of_lt_mul hlt)
  calc pageCeil page bytes ≤ limit / page * page := Nat.mul_le_mul_right _ hdiv
    _ ≤ limit := Nat.div_mul_le_self _ _

/-- A budget that the candidates overrun holds fewer of them. -/
theorem shrunk_lt {page limit fixed each count : Nat} (hpage : 0 < page)
    (hover : limit < pageCeil page (count * each + fixed)) (hfixed : fixed < limit - limit % page) :
    (limit - limit % page - fixed) / each < count := by
  have hlt : limit - limit % page < count * each + fixed := by
    by_contra hc
    exact absurd (pageCeil_le hpage (Nat.not_lt.mp hc)) (Nat.not_le.mpr hover)
  refine Nat.div_lt_of_lt_mul ?_
  rw [Nat.mul_comm]
  omega

theorem least_bounds {a b : Nat} (ha : 1 ≤ a) (hb : 1 ≤ b) :
    1 ≤ (if a < b then a else b) ∧ (if a < b then a else b) ≤ a := by
  split
  next => exact ⟨ha, le_refl _⟩
  next h => exact ⟨hb, Nat.not_lt.mp h⟩

def verifierBytes (env : PlanEnv) (plan : ResourcePlan) : Nat :=
  (plan.verifyConcurrency + plan.stabilityConcurrency) * env.verifierSlotBytes +
    plan.verificationBatchSize * env.verifierResultBytes + env.verifierFixedBytes

def tunnelBytes (env : PlanEnv) (plan : ResourcePlan) : Nat :=
  if plan.tunnelEnabled then plan.tunnelConcurrency *
    (env.verifierSlotBytes + env.verifierResultBytes + env.verifierFixedBytes + planTunnelWorkerBytes) else 0

/-- The bytes that a plan's budget leaves for candidates. -/
def planLimit (env : PlanEnv) (plan : ResourcePlan) : Nat :=
  plan.memoryBudgetBytes - pageCeil env.page env.workingBytes - max (verifierBytes env plan) (tunnelBytes env plan)

/-- The candidates that a plan's budget has whole pages for. -/
def planRoom (env : PlanEnv) (plan : ResourcePlan) : Nat :=
  (planLimit env plan - planLimit env plan % env.page - env.candidateFixedBytes) / env.candidateBytes

/-- What a plan is brought down to where it overruns its budget. -/
structure ShrunkTo (request : PlanRequest) (env : PlanEnv) (plan : ResourcePlan) (candidate finalist output : Nat) :
    Prop where
  auto : request.candidateAuto = true
  candidate_eq : candidate = min plan.plannedAddresses (planRoom env plan)
  finalist_eq : finalist = min plan.finalistLimit candidate
  explicit : request.finalistsAuto = false → request.finalistsAll = false → finalist = plan.finalistLimit
  output_eq : output = min plan.outputLimit finalist

theorem ite_lt_eq_min (a b : Nat) : (if a < b then a else b) = min a b := by
  split
  next hlt => exact (Nat.min_eq_left hlt.le).symm
  next hle => exact (Nat.min_eq_right (Nat.not_lt.mp hle)).symm

theorem shrinkPlan_ok (h : shrinkPlan request env plan = .ok plan') (hest : PlanEstimated env plan)
    (hover : plan.memoryBudgetBytes < plan.estimatedTotalBytes) (hpos : 1 ≤ plan.finalistLimit)
    (hout : 1 ≤ plan.outputLimit) (hbatch : 1 ≤ plan.verificationBatchSize) (hcap : plan.candidateCapacity ≤ 2 ^ 32 - 1) :
    ∃ candidate finalist output batch, plan' = { plan with
        candidateCapacity := candidate, finalistLimit := finalist, outputLimit := output,
        verificationBatchSize := batch, autoAdjusted := true } ∧
      candidate ≤ 2 ^ 32 - 1 ∧ plan.reachableTarget ≤ candidate ∧ finalist ≤ candidate ∧ 1 ≤ output ∧
      output ≤ finalist ∧ 1 ≤ batch ∧ batch ≤ finalist ∧ ShrunkTo request env plan candidate finalist output := by
  unfold shrinkPlan at h
  dsimp only at h
  have htransient : (if plan.estimatedTunnelBytes < plan.estimatedVerifierBytes then plan.estimatedVerifierBytes
      else plan.estimatedTunnelBytes) = max plan.estimatedVerifierBytes plan.estimatedTunnelBytes := by
    split
    next hlt => rw [max_eq_left hlt.le]
    next hle => rw [max_eq_right (Nat.not_lt.mp hle)]
  have hlimit : planLimit env plan = plan.memoryBudgetBytes - plan.estimatedWorkingBytes -
      max plan.estimatedVerifierBytes plan.estimatedTunnelBytes := by
    rw [hest.working, hest.verifier, hest.tunnel]
    rfl
  rw [htransient] at h
  have hsum := hest.sum
  generalize max plan.estimatedVerifierBytes plan.estimatedTunnelBytes = transient at h hsum hlimit
  have hbudget : ∀ x, (if 1 < env.page then x - x % env.page else x) = x - x % env.page := by
    intro x
    split
    next => rfl
    next hone =>
      have := env.page_pos
      rw [show env.page = 1 by omega, Nat.mod_one, Nat.sub_zero]
  rw [hbudget] at h
  split at h
  next => cases h
  next hauto =>
    split at h
    next => cases h
    next fixed hfixed =>
      split at h
      next => cases h
      next hroom =>
        split at h
        next => cases h
        next hpage =>
          have hlt := @shrunk_lt _ _ _ env.candidateBytes plan.candidateCapacity env.page_pos
            (by rw [← hest.candidate]; omega) (Nat.not_le.mp hpage)
          rw [← hlimit] at h hlt
          rw [show (planLimit env plan - planLimit env plan % env.page - env.candidateFixedBytes) / env.candidateBytes =
            planRoom env plan from rfl] at h hlt
          rw [ite_lt_eq_min] at h
          split at h
          next => cases h
          next htarget =>
            split at h
            next => cases h
            next hexplicit =>
              obtain rfl := Except.ok.inj h
              generalize hcand : min plan.plannedAddresses (planRoom env plan) = candidate at htarget hexplicit ⊢
              have hle : candidate ≤ planRoom env plan := hcand ▸ Nat.min_le_right _ _
              obtain ⟨hf, hfc⟩ := least_bounds (show 1 ≤ candidate by omega) hpos
              have hfin := ite_lt_eq_min candidate plan.finalistLimit
              have hkept : request.finalistsAuto = false → request.finalistsAll = false →
                  (if candidate < plan.finalistLimit then candidate else plan.finalistLimit) = plan.finalistLimit :=
                fun ha hall => if_neg fun hlt => hexplicit ⟨hlt, by simp [ha], by simp [hall]⟩
              generalize (if candidate < plan.finalistLimit then candidate else plan.finalistLimit) = finalist
                at hf hfc hfin hkept ⊢
              rw [Nat.mod_eq_of_lt (show finalist < 2 ^ 32 by omega)]
              obtain ⟨ho, hof⟩ := least_bounds hf hout
              obtain ⟨hb, hbf⟩ := least_bounds hf hbatch
              refine ⟨_, _, _, _, rfl, by omega, by omega, hfc, ho, hof, hb, hbf, by simpa using hauto, hcand.symm, ?_,
                hkept, ?_⟩
              · rw [hfin, Nat.min_comm]
              · rw [ite_lt_eq_min, Nat.min_comm]

theorem fitMemory_ok (h : fitMemory request env plan = .ok plan') (hc : PlanCounts plan) (hscoped : PlanScoped env plan)
    (hfits : PlanFits env plan) : PlanScoped env plan' ∧ PlanFits env plan' ∧ PlanCounts plan' ∧
      PlanEstimated env plan' ∧ plan'.estimatedTotalBytes ≤ plan'.memoryBudgetBytes := by
  unfold fitMemory at h
  obtain ⟨first, hfirst, h⟩ := Outcome.bind_ok h
  obtain ⟨_, _, _, _, _, rfl, hest⟩ := memoryEstimate_ok hfirst
  split at h
  next hover =>
    obtain ⟨small, hsmall, h⟩ := Outcome.bind_ok h
    obtain ⟨c, f, o, b, rfl, hcle, ht, hfc, ho, hof, hb, hbf, -⟩ := shrinkPlan_ok hsmall hest hover
      (hc.output_pos.trans hc.output_le) hc.output_pos hc.batch_pos hc.candidate_le
    split at h
    next last hlast =>
      obtain ⟨_, _, _, _, _, rfl, hest'⟩ := memoryEstimate_ok hlast
      split at h
      next => cases h
      next hle =>
        obtain rfl := Except.ok.inj h
        exact ⟨⟨hscoped.total, hscoped.planned_pos, hscoped.planned_le, hscoped.exact, hscoped.target⟩,
          ⟨hfits.limit, hfits.scan_pos, hfits.verify_pos, hfits.stability_pos, hfits.verify_fit, hfits.scan_fit,
            hfits.fds_le⟩, ⟨hcle, ht, hfc, ho, hof, hb, hbf⟩, hest', Nat.not_lt.mp hle⟩
    next => cases h
  next hle =>
    obtain rfl := Except.ok.inj h
    exact ⟨⟨hscoped.total, hscoped.planned_pos, hscoped.planned_le, hscoped.exact, hscoped.target⟩,
      ⟨hfits.limit, hfits.scan_pos, hfits.verify_pos, hfits.stability_pos, hfits.verify_fit, hfits.scan_fit,
        hfits.fds_le⟩, ⟨hc.candidate_le, hc.target_le, hc.finalist_le, hc.output_pos, hc.output_le, hc.batch_pos,
        hc.batch_le⟩, hest, Nat.not_lt.mp hle⟩

end Counts

/-- Every plan that is not refused keeps within the addresses, the descriptors and the memory it was given. -/
theorem planResolve_sound {request : PlanRequest} {env : PlanEnv} {plan : ResourcePlan}
    (h : planResolve request env = .ok plan) : PlanScoped env plan ∧ PlanFits env plan ∧ PlanCounts plan ∧
      PlanEstimated env plan ∧ plan.estimatedTotalBytes ≤ plan.memoryBudgetBytes := by
  unfold planResolve at h
  split at h
  next => cases h
  next henv =>
    obtain ⟨_, _, h⟩ := Outcome.bind_ok h
    split at h
    next => cases h
    next =>
      split at h
      next => cases h
      next hpercent =>
        obtain ⟨scope, hscope, h⟩ := Outcome.bind_ok h
        have hscoped := resolveScope_scoped hscope (by omega) (Nat.not_lt.mp hpercent)
        obtain ⟨p₁, h₁, h⟩ := Outcome.bind_ok h
        obtain ⟨p₂, h₂, h⟩ := Outcome.bind_ok h
        obtain ⟨p₃, h₃, h⟩ := Outcome.bind_ok h
        obtain ⟨p₄, h₄, h⟩ := Outcome.bind_ok h
        obtain ⟨p₅, h₅, h⟩ := Outcome.bind_ok h
        obtain ⟨p₆, h₆, h⟩ := Outcome.bind_ok h
        obtain ⟨p₇, h₇, h⟩ := Outcome.bind_ok h
        obtain ⟨_, _, _, _, _, rfl, hscan, hverify, hstab, hvfit, hsfit, hfds⟩ := resolveConcurrency_ok h₁
        obtain ⟨_, rfl, -⟩ := resolveMemoryBudget_ok h₂
        obtain ⟨candidate, rfl, hcpos, hcle, htarget, -⟩ := resolveCandidates_ok h₃
        obtain ⟨finalist, _, rfl, hfpos, hfle, -⟩ := resolveFinalists_ok h₄
        obtain ⟨_, _, _, rfl, -⟩ := resolveTunnel_ok h₅
        obtain ⟨output, _, _, rfl, hopos, hole, -⟩ := resolveOutput_ok h₆ hfpos
        obtain ⟨batch, rfl, hbpos, hble⟩ := resolveBatch_ok h₇
        have htle : scope.reachableTarget ≤ candidate := by
          by_cases hmode : scope.mode = .reachable
          · exact htarget hmode
          · rw [hscoped.target hmode]
            exact Nat.zero_le _
        refine fitMemory_ok h ⟨hcle, htle, hfle, hopos, hole, hbpos, hble⟩ ?_ ?_
        · exact ⟨hscoped.total, hscoped.planned_pos, hscoped.planned_le, hscoped.exact, hscoped.target⟩
        · exact ⟨rfl, hscan, hverify, hstab, hvfit, hsfit, hfds⟩

/-- A small set of addresses on a machine with four processors and 1024 descriptors. -/
def smallPlanEnv : PlanEnv where
  totalAddresses := 1000
  availableMemoryBytes := 0
  fdLimit := 1024
  inputPrefixes := 1
  normalizedPrefixes := 1
  inputAddresses := 1000
  duplicateAddresses := 0
  cpuCount := 4
  candidateBytes := 100
  candidateFixedBytes := 64
  verifierSlotBytes := 4096
  verifierResultBytes := 128
  verifierFixedBytes := 256
  workingBytes := 5000
  workingCapacityBytes := 0
  pageSize := 4096
  mobile := false

theorem planResolve_sample : ∃ plan, planResolve .defaults smallPlanEnv = .ok plan ∧
    plan.estimatedTotalBytes ≤ plan.memoryBudgetBytes ∧ plan.estimatedFds ≤ plan.fdLimit := by
  have h : planResolve .defaults smallPlanEnv =
      .ok ((planResolve .defaults smallPlanEnv).toOption.get (by decide)) := by rfl
  obtain ⟨_, hfits, _, _, htotal⟩ := planResolve_sound h
  exact ⟨_, h, htotal, hfits.fds_le⟩

end Qanat
