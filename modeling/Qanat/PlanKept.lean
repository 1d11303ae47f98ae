import Qanat.PlanSound

namespace Qanat

/-- The plan as it is first derived, before its memory is looked at. -/
def firstPlan (request : PlanRequest) (env : PlanEnv) : Except String ResourcePlan := do
  let scope ← resolveScope request.toScanRequest env.totalAddresses (planStart request env).toScanPlan
  let plan ← resolveConcurrency request env { planStart request env with toScanPlan := scope }
  let plan ← resolveMemoryBudget request env plan
  let plan ← resolveCandidates request env plan
  let plan ← resolveFinalists request plan
  let plan ← resolveTunnel request plan
  let plan ← resolveOutput request plan
  resolveBatch plan

section First

variable {request : PlanRequest} {env : PlanEnv} {plan plan' : ResourcePlan}

theorem planResolve_first (h : planResolve request env = .ok plan) :
    env.totalAddresses ≠ 0 ∧ env.candidateBytes ≠ 0 ∧ request.explorePercent ≤ 100 ∧
      ∃ first, firstPlan request env = .ok first ∧ fitMemory request env first = .ok plan := by
  unfold planResolve at h
  split at h
  next => cases h
  next henv =>
    obtain ⟨_, _, h⟩ := Outcome.bind_ok h
    split at h
    next => cases h
    next =>
      split at h
      next => cases h
      next hpercent =>
        obtain ⟨scope, hscope, h⟩ := Outcome.bind_ok h
        obtain ⟨p₁, h₁, h⟩ := Outcome.bind_ok h
        obtain ⟨p₂, h₂, h⟩ := Outcome.bind_ok h
        obtain ⟨p₃, h₃, h⟩ := Outcome.bind_ok h
        obtain ⟨p₄, h₄, h⟩ := Outcome.bind_ok h
        obtain ⟨p₅, h₅, h⟩ := Outcome.bind_ok h
        obtain ⟨p₆, h₆, h⟩ := Outcome.bind_ok h
        obtain ⟨p₇, h₇, h⟩ := Outcome.bind_ok h
        refine ⟨by omega, by omega, Nat.not_lt.mp hpercent, p₇, ?_, h⟩
        unfold firstPlan
        rw [hscope]
        show (resolveConcurrency request env _ >>= _) = _
        rw [h₁]
        show (resolveMemoryBudget request env p₁ >>= _) = _
        rw [h₂]
        show (resolveCandidates request env p₂ >>= _) = _
        rw [h₃]
        show (resolveFinalists request p₃ >>= _) = _
        rw [h₄]
        show (resolveTunnel request p₄ >>= _) = _
        rw [h₅]
        show (resolveOutput request p₅ >>= _) = _
        rw [h₆]
        exact h₇

/-- What of the scope is asked for. -/
structure ScopeKept (request : ScanRequest) (total : Nat) (scope : ScanPlan) : Prop where
  budget : request.mode = .budget → scope.plannedAddresses = min request.addressBudget total
  count : request.mode = .coverage → coverageCount total request.coveragePpm = some scope.plannedAddresses
  coverage : request.mode ≠ .auto → request.mode ≠ .full → scope.coveragePpm = request.coveragePpm

theorem scopeOf_kept {request : ScanRequest} {total : Nat} {plan scope : ScanPlan} (hmode : plan.mode = request.mode)
    (hppm : plan.coveragePpm = request.coveragePpm) (h : scopeOf request total plan = .ok scope) :
    ScopeKept request total scope := by
  unfold scopeOf at h
  rw [hmode, hppm] at h
  split at h
  next hm =>
    obtain rfl := Except.ok.inj h
    exact ⟨by simp [hm], by simp [hm], by simp [hm]⟩
  next hm =>
    split at h
    next => cases h
    next planned hcount =>
      split at h
      next =>
        obtain rfl := Except.ok.inj h
        exact ⟨by simp [hm], fun _ => hcount, fun _ _ => rfl⟩
      next =>
        obtain rfl := Except.ok.inj h
        exact ⟨by simp [hm], fun _ => hcount, fun _ _ => rfl⟩
  next hm =>
    split at h
    next => cases h
    next =>
      obtain rfl := Except.ok.inj h
      exact ⟨fun _ => ite_lt_eq_min _ _, by simp [hm], fun _ _ => rfl⟩
  next hm =>
    split at h
    next => cases h
    next =>
      obtain rfl := Except.ok.inj h
      exact ⟨by simp [hm], by simp [hm], fun _ _ => rfl⟩
  next => cases h

theorem resolveScope_kept {request : ScanRequest} {total : Nat} {plan scope : ScanPlan}
    (h : resolveScope request total plan = .ok scope) : ScopeKept request total scope := by
  by_cases hauto : request.mode = .auto
  · exact ⟨by simp [hauto], by simp [hauto], by simp [hauto]⟩
  · unfold resolveScope at h
    dsimp only at h
    rw [if_neg hauto] at h
    exact scopeOf_kept rfl rfl h

theorem autoCandidates_le (env : PlanEnv) (plan : ResourcePlan) : autoCandidates env plan ≤ plan.plannedAddresses := by
  unfold autoCandidates
  dsimp only
  rw [ite_lt_eq_min]
  exact Nat.min_le_left _ _

theorem verifiers_kept (request : PlanRequest) (env : PlanEnv) (h : ¬request.overVerify env) :
    request.verifiers env = (request.verifyWanted env, request.stabilityWanted env) :=
  if_neg h

/-- Bringing a plan down to its memory budget leaves its addresses as they are. -/
theorem shrinkPlan_scan (h : shrinkPlan request env plan = .ok plan') :
    plan'.toScanPlan = { plan.toScanPlan with autoAdjusted := true } := by
  unfold shrinkPlan at h
  split at h
  next => cases h
  next =>
    dsimp only at h
    generalize (if plan.estimatedTunnelBytes < plan.estimatedVerifierBytes then plan.estimatedVerifierBytes
      else plan.estimatedTunnelBytes) = transient at h
    split at h
    next => cases h
    next fixed hfixed =>
      generalize plan.memoryBudgetBytes - plan.estimatedWorkingBytes - transient = budget at h
      generalize (if 1 < env.page then budget - budget % env.page else budget) = budget at h
      generalize (budget - env.candidateFixedBytes) / env.candidateBytes = candidate at h
      generalize (if plan.plannedAddresses < candidate then plan.plannedAddresses else candidate) = candidate at h
      generalize (if candidate < plan.finalistLimit then candidate else plan.finalistLimit) = finalist at h
      split at h
      next => cases h
      next =>
        split at h
        next => cases h
        next =>
          split at h
          next => cases h
          next =>
            split at h
            next => cases h
            next =>
              obtain rfl := Except.ok.inj h
              rfl

theorem fitMemory_scan (h : fitMemory request env plan = .ok plan') :
    plan'.toScanPlan = { plan.toScanPlan with autoAdjusted := plan'.autoAdjusted } := by
  unfold fitMemory at h
  obtain ⟨first, hfirst, h⟩ := Outcome.bind_ok h
  obtain ⟨_, _, _, _, _, rfl, -⟩ := memoryEstimate_ok hfirst
  split at h
  next =>
    obtain ⟨small, hsmall, h⟩ := Outcome.bind_ok h
    have hsmall' := shrinkPlan_scan hsmall
    split at h
    next last hlast =>
      obtain ⟨_, _, _, _, _, rfl, -⟩ := memoryEstimate_ok hlast
      split at h
      next => cases h
      next =>
        obtain rfl := Except.ok.inj h
        show small.toScanPlan = { plan.toScanPlan with autoAdjusted := small.toScanPlan.autoAdjusted }
        rw [hsmall']
    next => cases h
  next =>
    obtain rfl := Except.ok.inj h
    rfl

theorem firstPlan_scan (h : firstPlan request env = .ok plan) :
    ∃ scope, resolveScope request.toScanRequest env.totalAddresses (planStart request env).toScanPlan = .ok scope ∧
      plan.toScanPlan = { scope with autoAdjusted := plan.autoAdjusted } := by
  unfold firstPlan at h
  obtain ⟨scope, hscope, h⟩ := Outcome.bind_ok h
  obtain ⟨p₁, h₁, h⟩ := Outcome.bind_ok h
  obtain ⟨p₂, h₂, h⟩ := Outcome.bind_ok h
  obtain ⟨p₃, h₃, h⟩ := Outcome.bind_ok h
  obtain ⟨p₄, h₄, h⟩ := Outcome.bind_ok h
  obtain ⟨p₅, h₅, h⟩ := Outcome.bind_ok h
  obtain ⟨p₆, h₆, h₇⟩ := Outcome.bind_ok h
  obtain ⟨_, _, _, _, _, rfl, -⟩ := resolveConcurrency_ok h₁
  obtain ⟨_, rfl, -⟩ := resolveMemoryBudget_ok h₂
  obtain ⟨_, rfl, -⟩ := resolveCandidates_ok h₃
  obtain ⟨_, _, rfl, hpos, -⟩ := resolveFinalists_ok h₄
  obtain ⟨_, _, _, rfl, -⟩ := resolveTunnel_ok h₅
  obtain ⟨_, _, _, rfl, -⟩ := resolveOutput_ok h₆ hpos
  obtain ⟨_, rfl, -⟩ := resolveBatch_ok h₇
  exact ⟨scope, hscope, rfl⟩

/-- The addresses of an accepted plan are those that `scanPlanResolve` settles on. What is resolved after the
scope can only note that it adjusted the plan. -/
theorem planResolve_scan (h : planResolve request env = .ok plan) :
    ∃ scope, scanPlanResolve request.toScanRequest env.totalAddresses = .ok scope ∧
      plan.toScanPlan = { scope with autoAdjusted := plan.autoAdjusted } := by
  obtain ⟨htotal, -, hpercent, first, hfirst, hfit⟩ := planResolve_first h
  obtain ⟨scope, hscope, hsame⟩ := firstPlan_scan hfirst
  refine ⟨scope, ?_, ?_⟩
  · unfold scanPlanResolve
    rw [if_neg htotal, if_neg (Nat.not_lt.mpr hpercent)]
    exact hscope
  · rw [fitMemory_scan hfit, hsame]

/-- What a plan keeps of the scope and the resources that are asked for. -/
structure ResourcesKept (request : PlanRequest) (env : PlanEnv) (plan : ResourcePlan) : Prop where
  scope : ScopeKept request.toScanRequest env.totalAddresses plan.toScanPlan
  scan : request.scanConcurrencyAuto = false → plan.scanConcurrency = request.scanConcurrency
  verify : request.verifyConcurrencyAuto = false → plan.verifyConcurrency = request.verifyConcurrency
  stability : request.stabilityConcurrencyAuto = false → plan.stabilityConcurrency = request.stabilityConcurrency
  lowered : plan.scanConcurrency < request.scanWanted env ∨ plan.verifyConcurrency < request.verifyWanted env ∨
    plan.stabilityConcurrency < request.stabilityWanted env → plan.autoAdjusted = true
  memory : request.memoryAuto = false → plan.memoryBudgetBytes = request.memoryBudgetBytes

theorem resources_kept {scope : ScanPlan} {p₁ p₂ : ResourcePlan}
    (hscope : ScopeKept request.toScanRequest env.totalAddresses scope)
    (h₁ : resolveConcurrency request env { plan with toScanPlan := scope } = .ok p₁)
    (h₂ : resolveMemoryBudget request env p₁ = .ok p₂) :
    ResourcesKept request env p₂ ∧ p₂.mode = scope.mode ∧ p₂.reachableTarget = scope.reachableTarget := by
  obtain ⟨-, -, hver, hscan, scan, fds, hscaneq, -, rfl⟩ := resolveConcurrency_inv h₁
  obtain ⟨budget, rfl, hbudget⟩ := resolveMemoryBudget_ok h₂
  refine ⟨⟨⟨hscope.budget, hscope.count, hscope.coverage⟩, ?_, ?_, ?_, ?_, ?_⟩, rfl, rfl⟩
  · intro hno
    have hfit : ¬env.availableFds < request.scanWanted env := fun hlt => by
      rw [hscan hlt] at hno
      cases hno
    show scan = request.scanConcurrency
    rw [hscaneq, if_neg hfit, PlanRequest.scanWanted, hno, if_neg Bool.false_ne_true]
  · intro hno
    have hfit : ¬request.overVerify env := fun hlt => by
      rw [(hver hlt).1] at hno
      cases hno
    show (request.verifiers env).1 = request.verifyConcurrency
    rw [verifiers_kept request env hfit, PlanRequest.verifyWanted, hno, if_neg Bool.false_ne_true]
  · intro hno
    have hfit : ¬request.overVerify env := fun hlt => by
      rw [(hver hlt).2] at hno
      cases hno
    show (request.verifiers env).2 = request.stabilityConcurrency
    rw [verifiers_kept request env hfit, PlanRequest.stabilityWanted, hno, if_neg Bool.false_ne_true]
  · intro hlow
    show (scope.autoAdjusted || decide (request.overVerify env) ||
      decide (env.availableFds < request.scanWanted env)) = true
    by_contra hno
    simp only [Bool.or_eq_true, decide_eq_true_eq, not_or] at hno
    obtain ⟨⟨-, hfit⟩, hfits⟩ := hno
    dsimp only at hlow
    rw [hscaneq, if_neg hfits, verifiers_kept request env hfit] at hlow
    rcases hlow with hlt | hlt | hlt <;> exact Nat.lt_irrefl _ hlt
  · intro hno
    show budget = request.memoryBudgetBytes
    rw [hbudget, hno, if_neg Bool.false_ne_true]

/-- Where the candidates and the finalists are settled. -/
structure CandidatesKept (request : PlanRequest) (plan : ResourcePlan) : Prop where
  candidate : request.candidateAuto = false → plan.candidateCapacity = request.candidateCapacity
  planned : request.candidateAuto = true → plan.candidateCapacity ≤ plan.plannedAddresses
  candidate_le : plan.candidateCapacity ≤ 2 ^ 32 - 1
  target_le : plan.mode = .reachable → plan.reachableTarget ≤ plan.candidateCapacity
  finalist : request.finalistsAuto = false → request.finalistsAll = false → plan.finalistLimit = request.finalistLimit
  finalist_pos : 1 ≤ plan.finalistLimit
  finalist_le : plan.finalistLimit ≤ plan.candidateCapacity

theorem candidates_kept {p₂ p₃ p₄ : ResourcePlan} (h₂ : ResourcesKept request env p₂)
    (h₃ : resolveCandidates request env p₂ = .ok p₃) (h₄ : resolveFinalists request p₃ = .ok p₄) :
    ResourcesKept request env p₄ ∧ CandidatesKept request p₄ ∧ p₄.mode = p₂.mode ∧
      p₄.reachableTarget = p₂.reachableTarget := by
  obtain ⟨candidate, rfl, hcpos, hcle, htarget, hcand⟩ := resolveCandidates_ok h₃
  obtain ⟨finalist, _, rfl, hfpos, hfle, hfin⟩ := resolveFinalists_ok h₄
  refine ⟨⟨h₂.scope, h₂.scan, h₂.verify, h₂.stability, h₂.lowered, h₂.memory⟩,
    ⟨?_, ?_, hcle, htarget, hfin, hfpos, hfle⟩, rfl, rfl⟩
  · intro hno
    show candidate = request.candidateCapacity
    rw [hcand, hno, if_neg Bool.false_ne_true]
  · intro hauto
    show candidate ≤ p₂.plannedAddresses
    rw [hcand, if_pos hauto]
    exact autoCandidates_le env p₂

/-- What a plan keeps of the tunnel and the output that are asked for. -/
structure OutputKept (request : PlanRequest) (plan : ResourcePlan) : Prop where
  tunnel : request.tunnelEnabled = true → 1 ≤ plan.tunnelTarget ∧ 1 ≤ plan.tunnelConcurrency ∧
    plan.tunnelConcurrency ≤ plan.tunnelTarget ∧
    plan.tunnelTarget = min (request.tunnelWanted plan.finalistLimit) plan.finalistLimit ∧
    (plan.finalistLimit < request.tunnelWanted plan.finalistLimit → plan.autoAdjusted = true)
  output : request.outputAll = false → plan.outputLimit = min request.outputLimit plan.finalistLimit ∧
    (plan.finalistLimit < request.outputLimit → plan.autoAdjusted = true)
  output_pos : 1 ≤ plan.outputLimit
  output_le : plan.outputLimit ≤ plan.finalistLimit

theorem output_kept {p₄ p₅ p₆ : ResourcePlan} (hr : ResourcesKept request env p₄) (hc : CandidatesKept request p₄)
    (h₅ : resolveTunnel request p₄ = .ok p₅) (h₆ : resolveOutput request p₅ = .ok p₆) :
    ResourcesKept request env p₆ ∧ CandidatesKept request p₆ ∧ OutputKept request p₆ ∧ p₆.mode = p₄.mode ∧
      p₆.reachableTarget = p₄.reachableTarget := by
  obtain ⟨target, concurrency, adjusted₁, rfl, hkeep₁, htunnel⟩ := resolveTunnel_ok h₅
  obtain ⟨output, _, adjusted₂, rfl, hopos, hole, hkeep₂, hout⟩ := resolveOutput_ok h₆ hc.finalist_pos
  refine ⟨⟨⟨hr.scope.budget, hr.scope.count, hr.scope.coverage⟩, hr.scan, hr.verify, hr.stability,
      fun hlow => hkeep₂ (hkeep₁ (hr.lowered hlow)), hr.memory⟩,
    ⟨hc.candidate, hc.planned, hc.candidate_le, hc.target_le, hc.finalist, hc.finalist_pos, hc.finalist_le⟩,
    ⟨fun hon => ?_, hout, hopos, hole⟩, rfl, rfl⟩
  obtain ⟨h₁, h₂, h₃, h₄, h₅⟩ := htunnel hon
  exact ⟨h₁, h₂, h₃, h₄, fun hlt => hkeep₂ (h₅ hlt)⟩

/-- What the plan as it is first derived keeps of the request. -/
structure FirstKept (request : PlanRequest) (env : PlanEnv) (first : ResourcePlan) : Prop where
  resources : ResourcesKept request env first
  candidates : CandidatesKept request first
  output : OutputKept request first
  counts : PlanCounts first

theorem firstPlan_kept {first : ResourcePlan} (h : firstPlan request env = .ok first)
    (htotal : env.totalAddresses ≠ 0) (hpercent : request.explorePercent ≤ 100) : FirstKept request env first := by
  unfold firstPlan at h
  obtain ⟨scope, hscope, h⟩ := Outcome.bind_ok h
  obtain ⟨p₁, h₁, h⟩ := Outcome.bind_ok h
  obtain ⟨p₂, h₂, h⟩ := Outcome.bind_ok h
  obtain ⟨p₃, h₃, h⟩ := Outcome.bind_ok h
  obtain ⟨p₄, h₄, h⟩ := Outcome.bind_ok h
  obtain ⟨p₅, h₅, h⟩ := Outcome.bind_ok h
  obtain ⟨p₆, h₆, h⟩ := Outcome.bind_ok h
  have hscoped := resolveScope_scoped hscope htotal hpercent
  obtain ⟨hr₂, hmode₂, htarget₂⟩ := resources_kept (resolveScope_kept hscope) h₁ h₂
  obtain ⟨hr₄, hc₄, hmode₄, htarget₄⟩ := candidates_kept hr₂ h₃ h₄
  obtain ⟨hr, hc, ho, hmode₆, htarget₆⟩ := output_kept hr₄ hc₄ h₅ h₆
  obtain ⟨batch, rfl, hbpos, hble⟩ := resolveBatch_ok h
  have htle : p₆.reachableTarget ≤ p₆.candidateCapacity := by
    by_cases hmode : p₆.mode = .reachable
    · exact hc.target_le hmode
    · rw [hmode₆, hmode₄, hmode₂] at hmode
      rw [htarget₆, htarget₄, htarget₂, show scope.reachableTarget = 0 from hscoped.target hmode]
      exact Nat.zero_le _
  exact ⟨⟨hr.scope, hr.scan, hr.verify, hr.stability, hr.lowered, hr.memory⟩,
    ⟨hc.candidate, hc.planned, hc.candidate_le, hc.target_le, hc.finalist, hc.finalist_pos, hc.finalist_le⟩,
    ⟨ho.tunnel, ho.output, ho.output_pos, ho.output_le⟩,
    ⟨hc.candidate_le, htle, hc.finalist_le, ho.output_pos, ho.output_le, hbpos, hble⟩⟩

end First

section Fit

variable {request : PlanRequest} {env : PlanEnv} {plan plan' : ResourcePlan}

/-- Candidates that fit a budget fit its whole pages. -/
theorem le_room {page limit fixed each count : Nat} (hpage : 0 < page) (heach : 0 < each)
    (h : pageCeil page (count * each + fixed) ≤ limit) : count ≤ (limit - limit % page - fixed) / each := by
  have hround : count * each + fixed ≤ pageCeil page (count * each + fixed) := by
    rw [pageCeil_of_mod hpage]
    split <;> omega
  have hdvd : page ∣ pageCeil page (count * each + fixed) := Nat.dvd_mul_left _ _
  have hfloor : pageCeil page (count * each + fixed) ≤ limit - limit % page := by
    obtain ⟨q, hq⟩ := hdvd
    have hsplit := Nat.div_add_mod limit page
    have hle : q ≤ limit / page := by
      rw [Nat.le_div_iff_mul_le hpage, Nat.mul_comm]
      omega
    have := Nat.mul_le_mul_left page hle
    omega
  rw [Nat.le_div_iff_mul_le heach]
  omega

/-- A plan as it is first derived, and what it becomes once its memory is looked at. -/
structure FittedTo (request : PlanRequest) (env : PlanEnv) (first plan : ResourcePlan) : Prop where
  scope : plan.plannedAddresses = first.plannedAddresses ∧ plan.coveragePpm = first.coveragePpm
  concurrency : plan.scanConcurrency = first.scanConcurrency ∧ plan.verifyConcurrency = first.verifyConcurrency ∧
    plan.stabilityConcurrency = first.stabilityConcurrency
  memory : plan.memoryBudgetBytes = first.memoryBudgetBytes
  tunnel : plan.tunnelTarget = first.tunnelTarget ∧ plan.tunnelConcurrency = first.tunnelConcurrency
  counts : (plan.candidateCapacity = first.candidateCapacity ∧ plan.finalistLimit = first.finalistLimit ∧
      plan.outputLimit = first.outputLimit ∧ plan.autoAdjusted = first.autoAdjusted ∧
      first.candidateCapacity ≤ planRoom env first) ∨
    (plan.autoAdjusted = true ∧
      ShrunkTo request env first plan.candidateCapacity plan.finalistLimit plan.outputLimit)

theorem fitMemory_fitted (h : fitMemory request env plan = .ok plan') (hc : PlanCounts plan)
    (hbytes : env.candidateBytes ≠ 0) : FittedTo request env plan plan' := by
  unfold fitMemory at h
  obtain ⟨first, hfirst, h⟩ := Outcome.bind_ok h
  obtain ⟨_, _, _, _, _, rfl, hest⟩ := memoryEstimate_ok hfirst
  split at h
  next hover =>
    obtain ⟨small, hsmall, h⟩ := Outcome.bind_ok h
    obtain ⟨c, f, o, b, rfl, -, -, -, -, -, -, -, hshrunk⟩ := shrinkPlan_ok hsmall hest hover
      (hc.output_pos.trans hc.output_le) hc.output_pos hc.batch_pos hc.candidate_le
    split at h
    next last hlast =>
      obtain ⟨_, _, _, _, _, rfl, -⟩ := memoryEstimate_ok hlast
      split at h
      next => cases h
      next =>
        obtain rfl := Except.ok.inj h
        refine ⟨⟨rfl, rfl⟩, ⟨rfl, rfl, rfl⟩, rfl, ⟨rfl, rfl⟩, .inr ⟨rfl, ?_⟩⟩
        exact ⟨hshrunk.auto, hshrunk.candidate_eq, hshrunk.finalist_eq, hshrunk.explicit, hshrunk.output_eq⟩
    next => cases h
  next hle =>
    obtain rfl := Except.ok.inj h
    refine ⟨⟨rfl, rfl⟩, ⟨rfl, rfl, rfl⟩, rfl, ⟨rfl, rfl⟩, .inl ⟨rfl, rfl, rfl, rfl, ?_⟩⟩
    refine le_room env.page_pos (Nat.pos_of_ne_zero hbytes) ?_
    have hsum := hest.sum
    rw [hest.candidate, hest.verifier, hest.tunnel, hest.working] at hsum
    unfold planLimit verifierBytes tunnelBytes
    dsimp only at hle hsum ⊢
    omega

theorem planResolve_fitted (h : planResolve request env = .ok plan) :
    ∃ first, firstPlan request env = .ok first ∧ FirstKept request env first ∧ FittedTo request env first plan := by
  obtain ⟨htotal, hbytes, hpercent, first, hfirst, hfit⟩ := planResolve_first h
  have hkept := firstPlan_kept hfirst htotal hpercent
  exact ⟨first, hfirst, hkept, fitMemory_fitted hfit hkept.counts hbytes⟩

/-- The finalists of a plan are brought down to those the budget has room for. -/
theorem FittedTo.finalists_eq {first : ResourcePlan} (h : FittedTo request env first plan)
    (hc : CandidatesKept request first) : plan.finalistLimit = min first.finalistLimit (planRoom env first) := by
  have hle := hc.finalist_le
  rcases h.counts with ⟨-, hsame, -, -, hroom⟩ | ⟨-, hshrunk⟩
  · rw [hsame, Nat.min_eq_left (hle.trans hroom)]
  · have hplanned := hc.planned hshrunk.auto
    rw [hshrunk.finalist_eq, hshrunk.candidate_eq, ← Nat.min_assoc, Nat.min_eq_left (hle.trans hplanned)]

end Fit

section Tunnel

variable {request : PlanRequest} {env : PlanEnv} {plan : ResourcePlan}

/-- A tunnel plan inside the finalists. -/
structure TunnelInside (request : PlanRequest) (plan : ResourcePlan) : Prop where
  target_pos : 1 ≤ plan.tunnelTarget
  target_le : plan.tunnelTarget ≤ plan.finalistLimit
  concurrency_pos : 1 ≤ plan.tunnelConcurrency
  concurrency_le : plan.tunnelConcurrency ≤ plan.tunnelTarget
  all : request.tunnelAll = true → plan.tunnelTarget = plan.finalistLimit

/-- Whether the memory budget has room for the tunnel target of the plan as it is first derived. -/
def TunnelRoom (request : PlanRequest) (env : PlanEnv) : Prop :=
  ∀ first, firstPlan request env = .ok first → first.tunnelTarget ≤ planRoom env first

theorem tunnel_inside_iff (hon : request.tunnelEnabled = true) (h : planResolve request env = .ok plan) :
    TunnelInside request plan ↔ TunnelRoom request env := by
  obtain ⟨first, hfirst, hkept, hfit⟩ := planResolve_fitted h
  obtain ⟨hpos, hcpos, hcle, htarget, -⟩ := hkept.output.tunnel hon
  have hfin := hfit.finalists_eq hkept.candidates
  have hle : first.tunnelTarget ≤ first.finalistLimit := by
    rw [htarget]
    exact Nat.min_le_right _ _
  constructor
  · intro hin first' hfirst'
    obtain rfl := Except.ok.inj (hfirst.symm.trans hfirst')
    have := hin.target_le
    rw [hfit.tunnel.1, hfin] at this
    exact this.trans (Nat.min_le_right _ _)
  · intro hroom
    have hroom := hroom first hfirst
    refine ⟨?_, ?_, ?_, ?_, fun hall => ?_⟩
    · rw [hfit.tunnel.1]
      exact hpos
    · rw [hfit.tunnel.1, hfin]
      exact Nat.le_min.mpr ⟨hle, hroom⟩
    · rw [hfit.tunnel.2]
      exact hcpos
    · rw [hfit.tunnel.1, hfit.tunnel.2]
      exact hcle
    · unfold PlanRequest.tunnelWanted at htarget
      rw [if_pos hall, Nat.min_self] at htarget
      rw [htarget] at hroom
      rw [hfit.tunnel.1, hfin, htarget, Nat.min_eq_left hroom]

theorem planResolve_get (h : (planResolve request env).toOption.isSome = true) :
    planResolve request env = .ok ((planResolve request env).toOption.get h) := by
  generalize planResolve request env = result at h
  cases result with
  | error e => cases h
  | ok plan => rfl

/-- A million addresses where the verifier's slots take most of a budget of 12 MiB. -/
def tightPlanEnv : PlanEnv where
  totalAddresses := 1000000
  availableMemoryBytes := 0
  fdLimit := 1024
  inputPrefixes := 1
  normalizedPrefixes := 1
  inputAddresses := 1000000
  duplicateAddresses := 0
  cpuCount := 4
  candidateBytes := 252
  candidateFixedBytes := 49152
  verifierSlotBytes := 65768
  verifierResultBytes := 660
  verifierFixedBytes := 4096
  workingBytes := 65536
  workingCapacityBytes := 0
  pageSize := 4096
  mobile := false

def tunnelAllRequest : PlanRequest :=
  { PlanRequest.defaults with
    mode := .full, memoryBudgetBytes := 12 * 2 ^ 20, memoryAuto := false, finalistsAuto := false, finalistsAll := true,
    tunnelEnabled := true, tunnelAll := true }

theorem tunnel_inside_small : ∃ plan, planResolve tunnelAllRequest smallPlanEnv = .ok plan ∧
    (TunnelInside tunnelAllRequest plan ↔ TunnelRoom tunnelAllRequest smallPlanEnv) := by
  have h := planResolve_get (show (planResolve tunnelAllRequest smallPlanEnv).toOption.isSome = true by decide)
  exact ⟨_, h, tunnel_inside_iff rfl h⟩

/-- The finalists are brought down to 11702, and the tunnel target stays at the 24966 they were before. -/
theorem tunnel_outside_tight : ∃ plan, planResolve tunnelAllRequest tightPlanEnv = .ok plan ∧
    plan.tunnelTarget = 24966 ∧ plan.finalistLimit = 11702 ∧ ¬TunnelInside tunnelAllRequest plan := by
  have h := planResolve_get (show (planResolve tunnelAllRequest tightPlanEnv).toOption.isSome = true by decide)
  refine ⟨_, h, rfl, rfl, fun hin => ?_⟩
  exact absurd hin.target_le (by decide)

end Tunnel

section Honours

variable {request : PlanRequest} {env : PlanEnv} {plan : ResourcePlan}

/-- Explicit values are in the plan as they were asked for, or cut where the plan says so, and automatic ones that are
lowered are marked. -/
structure PlanHonours (request : PlanRequest) (env : PlanEnv) (plan : ResourcePlan) : Prop where
  candidate : request.candidateAuto = false → plan.candidateCapacity = request.candidateCapacity
  finalist : request.finalistsAuto = false → request.finalistsAll = false → plan.finalistLimit = request.finalistLimit
  memory : request.memoryAuto = false → plan.memoryBudgetBytes = request.memoryBudgetBytes
  scan : request.scanConcurrencyAuto = false → plan.scanConcurrency = request.scanConcurrency
  verify : request.verifyConcurrencyAuto = false → plan.verifyConcurrency = request.verifyConcurrency
  stability : request.stabilityConcurrencyAuto = false → plan.stabilityConcurrency = request.stabilityConcurrency
  budget : request.mode = .budget → plan.plannedAddresses = min request.addressBudget env.totalAddresses
  coverage : request.mode ≠ .auto → request.mode ≠ .full → plan.coveragePpm = request.coveragePpm
  count : request.mode = .coverage →
    coverageCount env.totalAddresses request.coveragePpm = some plan.plannedAddresses
  output : request.outputAll = false → plan.outputLimit = request.outputLimit ∨
    plan.outputLimit = plan.finalistLimit ∧ plan.finalistLimit < request.outputLimit ∧ plan.autoAdjusted = true
  tunnel : request.tunnelEnabled = true → request.tunnelAll = false → plan.tunnelTarget = request.tunnelTarget ∨
    plan.tunnelTarget = plan.finalistLimit ∧ plan.finalistLimit < request.tunnelTarget ∧ plan.autoAdjusted = true
  lowered : ∀ first, firstPlan request env = .ok first → plan.candidateCapacity < first.candidateCapacity ∨
    plan.finalistLimit < first.finalistLimit → plan.autoAdjusted = true
  scan_lowered : request.scanConcurrencyAuto = true → plan.scanConcurrency < autoScanConcurrency env →
    plan.autoAdjusted = true
  verify_lowered : request.verifyConcurrencyAuto = true → plan.verifyConcurrency < autoVerifyConcurrency env →
    plan.autoAdjusted = true
  stability_lowered : request.stabilityConcurrencyAuto = true →
    plan.stabilityConcurrency < autoStabilityConcurrency env → plan.autoAdjusted = true

/-- Whether the memory budget has room for the finalists that an explicit tunnel target is cut to. -/
def CutRoom (request : PlanRequest) (env : PlanEnv) : Prop :=
  ∀ first, firstPlan request env = .ok first → request.tunnelEnabled = true → request.tunnelAll = false →
    first.finalistLimit < request.tunnelTarget → first.finalistLimit ≤ planRoom env first

theorem FittedTo.adjusted {first : ResourcePlan} (h : FittedTo request env first plan)
    (hfirst : first.autoAdjusted = true) : plan.autoAdjusted = true := by
  rcases h.counts with ⟨-, -, -, hsame, -⟩ | ⟨hadjusted, -⟩
  · rw [hsame, hfirst]
  · exact hadjusted

theorem FittedTo.output {first : ResourcePlan} (h : FittedTo request env first plan) (hkept : OutputKept request first)
    (hall : request.outputAll = false) : plan.outputLimit = request.outputLimit ∨
      plan.outputLimit = plan.finalistLimit ∧ plan.finalistLimit < request.outputLimit ∧ plan.autoAdjusted = true := by
  obtain ⟨hout, hadjusted⟩ := hkept.output hall
  rcases h.counts with ⟨-, hfin, hsame, hadj, -⟩ | ⟨hadj, hshrunk⟩
  · rw [hsame, hfin, hadj, hout]
    rcases Nat.lt_or_ge first.finalistLimit request.outputLimit with hlt | hge
    · exact .inr ⟨Nat.min_eq_right hlt.le, hlt, hadjusted hlt⟩
    · exact .inl (Nat.min_eq_left hge)
  · have hle : plan.finalistLimit ≤ first.finalistLimit := by
      rw [hshrunk.finalist_eq]
      exact Nat.min_le_left _ _
    rw [hshrunk.output_eq, hout, Nat.min_assoc, Nat.min_eq_right hle, hadj]
    rcases Nat.lt_or_ge plan.finalistLimit request.outputLimit with hlt | hge
    · exact .inr ⟨Nat.min_eq_right hlt.le, hlt, rfl⟩
    · exact .inl (Nat.min_eq_left hge)

/-- An explicit tunnel target is kept, or cut to the finalists, exactly where those it is cut to stay. -/
theorem FittedTo.tunnel_iff {first : ResourcePlan} (h : FittedTo request env first plan)
    (hkept : FirstKept request env first) (hon : request.tunnelEnabled = true) (hall : request.tunnelAll = false) :
    (plan.tunnelTarget = request.tunnelTarget ∨
      plan.tunnelTarget = plan.finalistLimit ∧ plan.finalistLimit < request.tunnelTarget ∧ plan.autoAdjusted = true) ↔
    (first.finalistLimit < request.tunnelTarget → first.finalistLimit ≤ planRoom env first) := by
  obtain ⟨-, -, -, htarget, hadjusted⟩ := hkept.output.tunnel hon
  have hfin := h.finalists_eq hkept.candidates
  unfold PlanRequest.tunnelWanted at htarget hadjusted
  rw [hall, if_neg Bool.false_ne_true] at htarget hadjusted
  rw [h.tunnel.1, htarget]
  rcases Nat.lt_or_ge first.finalistLimit request.tunnelTarget with hlt | hge
  · rw [Nat.min_eq_right hlt.le]
    constructor
    · rintro (hsame | ⟨hsame, -, -⟩) -
      · exact absurd hsame (Nat.ne_of_lt hlt)
      · rw [hfin] at hsame
        exact min_eq_left_iff.mp hsame.symm
    · intro hroom
      rw [hfin, Nat.min_eq_left (hroom hlt)]
      exact .inr ⟨rfl, hlt, h.adjusted (hadjusted hlt)⟩
  · rw [Nat.min_eq_left hge]
    exact ⟨fun _ hlt => absurd hlt (Nat.not_lt.mpr hge), fun _ => .inl rfl⟩

theorem plan_honours_iff (h : planResolve request env = .ok plan) :
    PlanHonours request env plan ↔ CutRoom request env := by
  obtain ⟨first, hfirst, hkept, hfit⟩ := planResolve_fitted h
  constructor
  · intro hhon first' hfirst' hon hall
    obtain rfl := Except.ok.inj (hfirst.symm.trans hfirst')
    exact (hfit.tunnel_iff hkept hon hall).mp (hhon.tunnel hon hall)
  · intro hcut
    have hr := hkept.resources
    obtain ⟨hplanned, hppm⟩ := hfit.scope
    obtain ⟨hscan, hverify, hstab⟩ := hfit.concurrency
    refine
      { candidate := ?_
        finalist := ?_
        memory := fun hno => hfit.memory.trans (hr.memory hno)
        scan := fun hno => hscan.trans (hr.scan hno)
        verify := fun hno => hverify.trans (hr.verify hno)
        stability := fun hno => hstab.trans (hr.stability hno)
        budget := fun hm => hplanned.trans (hr.scope.budget hm)
        coverage := fun hne hfull => hppm.trans (hr.scope.coverage hne hfull)
        count := fun hm => hplanned ▸ hr.scope.count hm
        output := hfit.output hkept.output
        tunnel := fun hon hall => (hfit.tunnel_iff hkept hon hall).mpr (hcut first hfirst hon hall)
        lowered := ?_
        scan_lowered := fun hauto hlt => hfit.adjusted (hr.lowered (.inl ?_))
        verify_lowered := fun hauto hlt => hfit.adjusted (hr.lowered (.inr (.inl ?_)))
        stability_lowered := fun hauto hlt => hfit.adjusted (hr.lowered (.inr (.inr ?_))) }
    · intro hno
      rcases hfit.counts with ⟨hsame, -⟩ | ⟨-, hshrunk⟩
      · exact hsame.trans (hkept.candidates.candidate hno)
      · rw [hshrunk.auto] at hno
        cases hno
    · intro hauto hall
      rcases hfit.counts with ⟨-, hsame, -⟩ | ⟨-, hshrunk⟩
      · exact hsame.trans (hkept.candidates.finalist hauto hall)
      · exact (hshrunk.explicit hauto hall).trans (hkept.candidates.finalist hauto hall)
    · intro first' hfirst' hlow
      obtain rfl := Except.ok.inj (hfirst.symm.trans hfirst')
      rcases hfit.counts with ⟨hcand, hfin, -⟩ | ⟨hadjusted, -⟩
      · omega
      · exact hadjusted
    · rw [← hscan, PlanRequest.scanWanted, if_pos hauto]
      exact hlt
    · rw [← hverify, PlanRequest.verifyWanted, if_pos hauto]
      exact hlt
    · rw [← hstab, PlanRequest.stabilityWanted, if_pos hauto]
      exact hlt

def tunnelMostRequest : PlanRequest :=
  { tunnelAllRequest with tunnelAll := false, tunnelTarget := 30000 }

theorem plan_honours_small : ∃ plan, planResolve tunnelMostRequest smallPlanEnv = .ok plan ∧
    (PlanHonours tunnelMostRequest smallPlanEnv plan ↔ CutRoom tunnelMostRequest smallPlanEnv) := by
  have h := planResolve_get (show (planResolve tunnelMostRequest smallPlanEnv).toOption.isSome = true by decide)
  exact ⟨_, h, plan_honours_iff h⟩

/-- A tunnel target of 30000 becomes 24966 in a plan of 11702 finalists. -/
theorem plan_drops_tight : ∃ plan, planResolve tunnelMostRequest tightPlanEnv = .ok plan ∧
    plan.tunnelTarget = 24966 ∧ plan.finalistLimit = 11702 ∧
    ¬PlanHonours tunnelMostRequest tightPlanEnv plan := by
  have h := planResolve_get (show (planResolve tunnelMostRequest tightPlanEnv).toOption.isSome = true by decide)
  refine ⟨_, h, rfl, rfl, fun hhon => ?_⟩
  rcases hhon.tunnel rfl rfl with hsame | ⟨hsame, -⟩
  · exact absurd hsame (by decide)
  · exact absurd hsame (by decide)

end Honours

end Qanat
