import Qanat.PlanRequest

namespace Qanat

/-- `qn_scan_environment`. -/
structure PlanEnv where
  totalAddresses : Nat
  availableMemoryBytes : Nat
  fdLimit : Nat
  inputPrefixes : Nat
  normalizedPrefixes : Nat
  inputAddresses : Nat
  duplicateAddresses : Nat
  cpuCount : Nat
  candidateBytes : Nat
  candidateFixedBytes : Nat
  verifierSlotBytes : Nat
  verifierResultBytes : Nat
  verifierFixedBytes : Nat
  workingBytes : Nat
  workingCapacityBytes : Nat
  pageSize : Nat
  mobile : Bool

/-- `qn_scan_plan` with its resources; a refused plan is the message of its refusal. -/
structure ResourcePlan extends ScanPlan where
  rankBy : RankPolicy
  candidateCapacity : Nat
  finalistLimit : Nat
  outputLimit : Nat
  memoryBudgetBytes : Nat
  estimatedCandidateBytes : Nat
  estimatedVerifierBytes : Nat
  estimatedTunnelBytes : Nat
  estimatedWorkingBytes : Nat
  estimatedTotalBytes : Nat
  fdLimit : Nat
  estimatedFds : Nat
  scanConcurrency : Nat
  verifyConcurrency : Nat
  stabilityConcurrency : Nat
  tunnelTarget : Nat
  tunnelConcurrency : Nat
  tunnelAttempts : Nat
  verificationBatchSize : Nat
  inputPrefixes : Nat
  normalizedPrefixes : Nat
  inputAddresses : Nat
  duplicateAddresses : Nat
  finalistsAll : Bool
  outputAll : Bool
  representative : Bool
  tunnelEnabled : Bool
  tunnelAll : Bool

def planFdReserve : Nat := 64

def planTunnelFds : Nat := 3

def planTunnelWorkerBytes : Nat := 65536

def PlanEnv.cpus (env : PlanEnv) : Nat :=
  if env.cpuCount ≠ 0 then env.cpuCount else 1

def autoMemory (env : PlanEnv) : Nat :=
  let preferred := (if env.mobile then 128 else 256) * 2 ^ 20
  if env.availableMemoryBytes ≠ 0 ∧ env.availableMemoryBytes / 2 < preferred then env.availableMemoryBytes / 2
  else preferred

def autoScanConcurrency (env : PlanEnv) : Nat :=
  let byCpu := if env.cpus * 32 < 32 then 32 else env.cpus * 32
  let byFd := if planFdReserve < env.fdLimit then env.fdLimit - planFdReserve else 1
  (if byCpu < byFd then byCpu else byFd) % 2 ^ 32

/-- A count per processor kept within a floor and a ceiling. -/
def clampConcurrency (value floor ceiling : Nat) : Nat :=
  let value := if value < floor then floor else value
  if ceiling < value then ceiling else value

def autoVerifyConcurrency (env : PlanEnv) : Nat :=
  clampConcurrency (env.cpus * 4) (if env.mobile then 4 else 8) (if env.mobile then 32 else 64)

def autoStabilityConcurrency (env : PlanEnv) : Nat :=
  clampConcurrency (env.cpus * 32) 32 (if env.mobile then 128 else 512)

/-- Verifier and stability slots brought down to the descriptors that are left. -/
def fitVerifiers (available verify : Nat) : Nat × Nat :=
  let stability := if verify < available then (available - verify) % 2 ^ 32 else 1
  if available < verify + stability then (if 1 < available then (available - 1) % 2 ^ 32 else 1, stability)
  else (verify, stability)

def tunnelFds (request : PlanRequest) : Option Nat :=
  if request.tunnelEnabled then mulU64 request.tunnelConcurrency planTunnelFds else some 0

def PlanEnv.availableFds (env : PlanEnv) : Nat :=
  if planFdReserve < env.fdLimit then env.fdLimit - planFdReserve else 0

def resolveConcurrency (request : PlanRequest) (env : PlanEnv) (plan : ResourcePlan) : Except String ResourcePlan :=
  let available := env.availableFds
  let scan := if request.scanConcurrencyAuto then autoScanConcurrency env else request.scanConcurrency
  let verify := if request.verifyConcurrencyAuto then autoVerifyConcurrency env else request.verifyConcurrency
  let stability :=
    if request.stabilityConcurrencyAuto then autoStabilityConcurrency env else request.stabilityConcurrency
  if scan = 0 ∨ verify = 0 ∨ stability = 0 then .error "concurrency values must be greater than zero"
  else if available < 2 then .error "file descriptor limit leaves fewer than two verifier slots"
  else
    match tunnelFds request with
    | none => .error "tunnel file descriptor estimate overflowed"
    | some tunnel =>
      if available < tunnel then .error "Tunnel Concurrency exceeds the file descriptor budget"
      else if available < verify + stability ∧ (!request.verifyConcurrencyAuto || !request.stabilityConcurrencyAuto) then
        .error "requested verifier concurrency exceeds the file descriptor budget"
      else
        let exceeds := available < verify + stability
        let (verify, stability) := if exceeds then fitVerifiers available verify else (verify, stability)
        if available < scan ∧ !request.scanConcurrencyAuto then
          .error "requested scan concurrency exceeds the file descriptor budget"
        else
          let scan' := if available < scan then available % 2 ^ 32 else scan
          .ok { plan with
            scanConcurrency := scan'
            verifyConcurrency := verify
            stabilityConcurrency := stability
            autoAdjusted := plan.autoAdjusted || exceeds || available < scan
            estimatedFds := planFdReserve + max (max (verify + stability) tunnel) scan' }

/-- `candidate % page` and the rounding up of `memory_estimate`. -/
def roundToPage (page bytes : Nat) : Option Nat :=
  if 1 < page ∧ bytes % page ≠ 0 then addU64 bytes (page - bytes % page) else some bytes

def PlanEnv.page (env : PlanEnv) : Nat :=
  if env.pageSize ≠ 0 then env.pageSize else 4096

def candidateEstimate (plan : ResourcePlan) (env : PlanEnv) : Option Nat := do
  let candidate ← mulU64 plan.candidateCapacity env.candidateBytes
  addU64 candidate env.candidateFixedBytes

def verifierEstimate (plan : ResourcePlan) (env : PlanEnv) : Option Nat := do
  let slots ← addU64 plan.verifyConcurrency plan.stabilityConcurrency
  let verifier ← mulU64 slots env.verifierSlotBytes
  let results ← mulU64 plan.verificationBatchSize env.verifierResultBytes
  let verifier ← addU64 verifier results
  addU64 verifier env.verifierFixedBytes

def tunnelEstimate (plan : ResourcePlan) (env : PlanEnv) : Option Nat :=
  if plan.tunnelEnabled then do
    let worker ← addU64 env.verifierSlotBytes env.verifierResultBytes
    let worker ← addU64 worker env.verifierFixedBytes
    let worker ← addU64 worker planTunnelWorkerBytes
    mulU64 plan.tunnelConcurrency worker
  else some 0

def memoryEstimate (plan : ResourcePlan) (env : PlanEnv) : Except String ResourcePlan :=
  match candidateEstimate plan env, verifierEstimate plan env with
  | some candidate, some verifier =>
    match tunnelEstimate plan env with
    | some tunnel =>
      match roundToPage env.page candidate, roundToPage env.page env.workingBytes with
      | some candidate, some working =>
        match addU64 candidate (if tunnel < verifier then verifier else tunnel) with
        | some total =>
          match addU64 total working with
          | some total => .ok { plan with
              estimatedCandidateBytes := candidate
              estimatedVerifierBytes := verifier
              estimatedTunnelBytes := tunnel
              estimatedWorkingBytes := working
              estimatedTotalBytes := total }
          | none => .error "resource plan arithmetic overflowed"
        | none => .error "resource plan arithmetic overflowed"
      | _, _ => .error "resource plan arithmetic overflowed"
    | none => .error "tunnel resource plan arithmetic overflowed"
  | _, _ => .error "resource plan arithmetic overflowed"

def autoCandidates (env : PlanEnv) (plan : ResourcePlan) : Nat :=
  let candidate := plan.memoryBudgetBytes / 2 / env.candidateBytes
  let candidate := if 65536 < candidate then 65536 else candidate
  let candidate := if plan.mode = .reachable ∧ candidate < plan.reachableTarget then plan.reachableTarget else candidate
  let candidate := if candidate < 4096 ∧ 4096 ≤ plan.plannedAddresses then 4096 else candidate
  if plan.plannedAddresses < candidate then plan.plannedAddresses else candidate

def resolveCandidates (request : PlanRequest) (env : PlanEnv) (plan : ResourcePlan) : Except String ResourcePlan :=
  let candidate := if request.candidateAuto then autoCandidates env plan else request.candidateCapacity
  if candidate = 0 ∨ 2 ^ 32 - 1 < candidate then .error "Candidate Capacity must be between 1 and 4294967295"
  else if plan.mode = .reachable ∧ candidate < plan.reachableTarget then
    .error "Candidate Capacity must be at least the Reachable Target"
  else .ok { plan with candidateCapacity := candidate }

def resolveFinalists (request : PlanRequest) (plan : ResourcePlan) : Except String ResourcePlan :=
  let most := if plan.exactFull then 1024 else 256
  let finalist :=
    if request.finalistsAll then plan.candidateCapacity
    else if request.finalistsAuto then (if plan.candidateCapacity < most then plan.candidateCapacity else most)
    else request.finalistLimit
  if finalist = 0 ∨ plan.candidateCapacity < finalist then
    .error "Finalist Count must be between 1 and Candidate Capacity"
  else .ok { plan with finalistLimit := finalist, finalistsAll := request.finalistsAll }

def resolveTunnel (request : PlanRequest) (plan : ResourcePlan) : Except String ResourcePlan :=
  if request.tunnelEnabled then
    let target := if request.tunnelAll then plan.finalistLimit else request.tunnelTarget
    let target' := if plan.finalistLimit < target then plan.finalistLimit else target
    let concurrency := if target' < plan.tunnelConcurrency then target' % 2 ^ 32 else plan.tunnelConcurrency
    if target' = 0 ∨ concurrency = 0 ∨ plan.tunnelAttempts = 0 then .error "tunnel resource plan is empty"
    else .ok { plan with
      tunnelTarget := target'
      tunnelConcurrency := concurrency
      autoAdjusted := plan.autoAdjusted || plan.finalistLimit < target || target' < plan.tunnelConcurrency }
  else .ok plan

def resolveOutput (request : PlanRequest) (plan : ResourcePlan) : Except String ResourcePlan :=
  if request.outputAll then .ok { plan with outputLimit := plan.finalistLimit, outputAll := true }
  else if request.outputLimit = 0 then .error "Output Top must be greater than zero or all"
  else if plan.finalistLimit < request.outputLimit then
    .ok { plan with outputLimit := plan.finalistLimit, autoAdjusted := true }
  else .ok { plan with outputLimit := request.outputLimit }

def resolveBatch (plan : ResourcePlan) : Except String ResourcePlan :=
  let batch := if plan.verifyConcurrency * 4 < 32 then 32 else plan.verifyConcurrency * 4
  let batch := if plan.finalistLimit < batch then plan.finalistLimit else batch
  if batch = 0 ∨ 2 ^ 32 - 1 < batch then .error "verification batch size exceeds the platform limit"
  else .ok { plan with verificationBatchSize := batch }

/-- The candidates, and all that depends on them, brought down to the memory budget. -/
def shrinkPlan (request : PlanRequest) (env : PlanEnv) (plan : ResourcePlan) : Except String ResourcePlan :=
  if !request.candidateAuto then .error "requested Candidate Capacity exceeds the memory budget"
  else
    let transient :=
      if plan.estimatedTunnelBytes < plan.estimatedVerifierBytes then plan.estimatedVerifierBytes
      else plan.estimatedTunnelBytes
    match (addU64 plan.estimatedWorkingBytes transient).bind fun fixed => addU64 fixed env.candidateFixedBytes with
    | none => .error "working set and verifier exceed the memory budget"
    | some fixed =>
      if plan.memoryBudgetBytes ≤ fixed then .error "working set and verifier exceed the memory budget"
      else
        let budget := plan.memoryBudgetBytes - plan.estimatedWorkingBytes - transient
        let budget := if 1 < env.page then budget - budget % env.page else budget
        if budget ≤ env.candidateFixedBytes then .error "memory budget cannot hold one candidate page"
        else
          let candidate := (budget - env.candidateFixedBytes) / env.candidateBytes
          let candidate := if plan.plannedAddresses < candidate then plan.plannedAddresses else candidate
          if candidate < plan.reachableTarget ∨ candidate = 0 then
            .error "memory budget cannot retain the requested Reachable Target"
          else if candidate < plan.finalistLimit ∧ !request.finalistsAuto ∧ !request.finalistsAll then
            .error "Finalist Count exceeds memory-adjusted Candidate Capacity"
          else
            let finalist := if candidate < plan.finalistLimit then candidate else plan.finalistLimit
            .ok { plan with
              candidateCapacity := candidate
              finalistLimit := finalist
              outputLimit := if finalist < plan.outputLimit then finalist else plan.outputLimit
              verificationBatchSize :=
                if finalist < plan.verificationBatchSize then finalist % 2 ^ 32 else plan.verificationBatchSize
              autoAdjusted := true }

def fitMemory (request : PlanRequest) (env : PlanEnv) (plan : ResourcePlan) : Except String ResourcePlan := do
  let plan ← memoryEstimate plan env
  if plan.memoryBudgetBytes < plan.estimatedTotalBytes then
    let plan ← shrinkPlan request env plan
    match memoryEstimate plan env with
    | .ok plan =>
      if plan.memoryBudgetBytes < plan.estimatedTotalBytes then
        .error "automatic resource plan cannot fit the memory budget"
      else .ok plan
    | .error _ => .error "automatic resource plan cannot fit the memory budget"
  else .ok plan

/-- The plan before its scope is resolved. -/
def planStart (request : PlanRequest) (env : PlanEnv) : ResourcePlan where
  requestedMode := .auto
  mode := .auto
  selection := request.selection
  rankBy := request.rankBy
  coveragePpm := 0
  explorePercent := request.explorePercent
  totalAddresses := env.totalAddresses
  plannedAddresses := 0
  reachableTarget := 0
  exactFull := false
  autoAdjusted := false
  candidateCapacity := 0
  finalistLimit := 0
  outputLimit := 0
  memoryBudgetBytes := 0
  estimatedCandidateBytes := 0
  estimatedVerifierBytes := 0
  estimatedTunnelBytes := 0
  estimatedWorkingBytes := 0
  estimatedTotalBytes := 0
  fdLimit := env.fdLimit
  estimatedFds := 0
  scanConcurrency := 0
  verifyConcurrency := 0
  stabilityConcurrency := 0
  tunnelTarget := 0
  tunnelConcurrency := request.tunnelConcurrency
  tunnelAttempts := request.tunnelAttempts
  verificationBatchSize := 0
  inputPrefixes := env.inputPrefixes
  normalizedPrefixes := env.normalizedPrefixes
  inputAddresses := env.inputAddresses
  duplicateAddresses := env.duplicateAddresses
  finalistsAll := false
  outputAll := false
  representative := request.selection = .uniform ∨ request.selection = .stratified
  tunnelEnabled := request.tunnelEnabled
  tunnelAll := request.tunnelAll

def resolveMemoryBudget (request : PlanRequest) (env : PlanEnv) (plan : ResourcePlan) : Except String ResourcePlan :=
  let budget := if request.memoryAuto then autoMemory env else request.memoryBudgetBytes
  if budget = 0 then .error "memory budget must be greater than zero"
  else .ok { plan with memoryBudgetBytes := budget }

/-- `qn_scan_plan_resolve`. -/
def planResolve (request : PlanRequest) (env : PlanEnv) : Except String ResourcePlan := do
  if env.totalAddresses = 0 ∨ env.candidateBytes = 0 ∨ env.verifierSlotBytes = 0 ∨ env.verifierResultBytes = 0 then
    .error "scan plan environment is incomplete"
  else
    requestValidate request
    if env.workingCapacityBytes ≠ 0 ∧ env.workingCapacityBytes < env.workingBytes then
      .error "range metadata exceeds the working arena capacity"
    else if 100 < request.explorePercent then .error "scan selection or ranking policy is invalid"
    else
      let scope ← resolveScope request.toScanRequest env.totalAddresses (planStart request env).toScanPlan
      let plan ← resolveConcurrency request env { planStart request env with toScanPlan := scope }
      let plan ← resolveMemoryBudget request env plan
      let plan ← resolveCandidates request env plan
      let plan ← resolveFinalists request plan
      let plan ← resolveTunnel request plan
      let plan ← resolveOutput request plan
      let plan ← resolveBatch plan
      fitMemory request env plan

end Qanat
