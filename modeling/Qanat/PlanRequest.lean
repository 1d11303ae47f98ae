import Qanat.ScanPlan

namespace Qanat

inductive RankPolicy
  | balanced | latency | stability | throughput
  deriving DecidableEq

/-- `qn_scan_request`. -/
structure PlanRequest extends ScanRequest where
  rankBy : RankPolicy
  candidateCapacity : Nat
  finalistLimit : Nat
  outputLimit : Nat
  memoryBudgetBytes : Nat
  scanConcurrency : Nat
  verifyConcurrency : Nat
  stabilityConcurrency : Nat
  tunnelTarget : Nat
  tunnelConcurrency : Nat
  tunnelAttempts : Nat
  candidateAuto : Bool
  finalistsAuto : Bool
  finalistsAll : Bool
  outputAll : Bool
  memoryAuto : Bool
  scanConcurrencyAuto : Bool
  verifyConcurrencyAuto : Bool
  stabilityConcurrencyAuto : Bool
  tunnelEnabled : Bool
  tunnelAll : Bool

/-- `QN_SCAN_REQUEST_INIT`. -/
def PlanRequest.defaults : PlanRequest where
  mode := .auto
  selection := .hybrid
  rankBy := .balanced
  coveragePpm := 100000
  explorePercent := 20
  addressBudget := 0
  reachableTarget := 0
  candidateCapacity := 0
  finalistLimit := 0
  outputLimit := 20
  memoryBudgetBytes := 0
  scanConcurrency := 0
  verifyConcurrency := 0
  stabilityConcurrency := 0
  tunnelTarget := 0
  tunnelConcurrency := 1
  tunnelAttempts := 2
  candidateAuto := true
  finalistsAuto := true
  finalistsAll := false
  outputAll := false
  memoryAuto := true
  scanConcurrencyAuto := true
  verifyConcurrencyAuto := true
  stabilityConcurrencyAuto := true
  tunnelEnabled := false
  tunnelAll := false

/-- The checks of `qn_scan_request_validate` in their order, each with the message of its failure. -/
def requestChecks (r : PlanRequest) : List (Bool × String) :=
  [ (r.coveragePpm < 100 || coverageScale < r.coveragePpm, "Coverage must be from 0.01% to 100%"),
    (100 < r.explorePercent, "Explore Percent must be from 0 to 100"),
    (r.mode = .budget && r.addressBudget = 0, "Address Budget must be greater than zero"),
    (r.mode = .reachable && r.reachableTarget = 0, "Reachable Target must be greater than zero"),
    (!r.candidateAuto && (r.candidateCapacity = 0 || 2 ^ 32 - 1 < r.candidateCapacity),
      "Candidate Capacity must be from 1 to 4294967295"),
    (r.finalistsAll && r.finalistsAuto, "Finalist Count cannot be both Auto and All Candidates"),
    (!r.finalistsAll && !r.finalistsAuto && (r.finalistLimit = 0 || 2 ^ 32 - 1 < r.finalistLimit),
      "Finalist Count must be from 1 to 4294967295"),
    (!r.candidateAuto && !r.finalistsAuto && !r.finalistsAll && r.candidateCapacity < r.finalistLimit,
      "Finalist Count cannot exceed Candidate Capacity"),
    (r.mode = .reachable && !r.candidateAuto && r.candidateCapacity < r.reachableTarget,
      "Reachable Target cannot exceed Candidate Capacity"),
    (!r.outputAll && (r.outputLimit = 0 || 2 ^ 32 - 1 < r.outputLimit),
      "Output Top must be from 1 to 4294967295 or All Verified"),
    (!r.memoryAuto && r.memoryBudgetBytes = 0, "Memory Budget must be greater than zero"),
    (!r.scanConcurrencyAuto && r.scanConcurrency = 0 || !r.verifyConcurrencyAuto && r.verifyConcurrency = 0 ||
      !r.stabilityConcurrencyAuto && r.stabilityConcurrency = 0, "Concurrency must be greater than zero"),
    (r.tunnelEnabled && !r.tunnelAll && r.tunnelTarget = 0, "Tunnel Target must be greater than zero or All"),
    (r.tunnelEnabled && (r.tunnelConcurrency = 0 || 32 < r.tunnelConcurrency),
      "Tunnel Concurrency must be from 1 to 32"),
    (r.tunnelEnabled && (r.tunnelAttempts = 0 || 2 < r.tunnelAttempts), "Tunnel Attempts must be from 1 to 2") ]

/-- `qn_scan_request_validate`: the message of the first check that fails. -/
def requestValidate (r : PlanRequest) : Except String Unit :=
  match (requestChecks r).find? Prod.fst with
  | some (_, message) => .error message
  | none => .ok ()

theorem requestValidate_defaults : requestValidate .defaults = .ok () := by decide

end Qanat
