import Qanat.Cidr
import Qanat.PlanRequest

namespace Qanat

def termSuccess : UInt8 := 1

def rungTcp : UInt8 := 1

def rungTls : UInt8 := 2

def rungHttp : UInt8 := 3

def rungEdge : UInt8 := 4

def rungFlowing : UInt8 := 5

def rungStable : UInt8 := 6

def rungCount : UInt8 := 7

def tunnelUntested : UInt8 := 0

def tunnelPassed : UInt8 := 2

def tunnelBinaryMissing : UInt8 := 3

def tunnelConfigInvalid : UInt8 := 4

def tunnelStartFailed : UInt8 := 5

def tunnelSocksFailed : UInt8 := 6

def tunnelProbeFailed : UInt8 := 7

def tunnelNoMarker : UInt8 := 8

def tunnelCancelled : UInt8 := 9

/-- The fields of `cf_record` that ranking reads and writes. -/
structure CfRecord where
  addr : Addr
  rttMedUs : UInt32
  rttP90Us : UInt32
  confidence : UInt16
  rttDeltaMeanUs : UInt32
  score : UInt32
  scoreVersion : UInt16
  scoreEdge : UInt16
  scoreLatency : UInt16
  scoreStability : UInt16
  scoreConfidence : UInt16
  scoreThroughput : UInt16
  scoreTunnel : UInt16
  highestRungReached : UInt8
  terminalOutcome : UInt8
  lossPct : UInt8
  colo : List UInt8
  kbps : UInt32
  idleHeldMs : UInt32
  verified : Bool
  tunnelState : UInt8
  deriving DecidableEq

/-- `qn_tunnel_state_failed`. -/
def tunnelStateFailed (state : UInt8) : Bool :=
  state = tunnelConfigInvalid || state = tunnelStartFailed || state = tunnelSocksFailed || state = tunnelProbeFailed ||
    state = tunnelNoMarker

/-- `qn_tunnel_state_skipped`. -/
def tunnelStateSkipped (state : UInt8) : Bool :=
  state = tunnelBinaryMissing || state = tunnelCancelled

/-- `qn_classification_has_tls` of `qn_cf_record_classification`. -/
def CfRecord.hasTls (r : CfRecord) : Bool :=
  r.terminalOutcome = termSuccess && rungTls ≤ r.highestRungReached && r.highestRungReached < rungCount

def scoreVersionNow : UInt16 := 3

/-- The points of a rung; a rung without any makes the score zero. -/
def edgePoints (rung : UInt8) : Option Nat :=
  if rung = rungStable then some 4000
  else if rung = rungFlowing then some 3700
  else if rung = rungEdge then some 3400
  else if rung = rungHttp then some 2800
  else if rung = rungTls then some 2200
  else if rung = rungTcp then some 800
  else none

/-- The points of a time, from `top` at nothing down to none at `span`. -/
def timeQuality (top span us : Nat) : Nat :=
  if span ≤ us then 0 else top - us * top / span

def medianQuality (us : UInt32) : Nat :=
  if us = 0 then 0 else timeQuality 1500 600000 us.toNat

def p90Quality (us : UInt32) : Nat :=
  if us = 0 then 0 else timeQuality 1000 900000 us.toNat

def jitterQuality (us : UInt32) : Nat :=
  timeQuality 750 150000 us.toNat

def lossQuality (pct : UInt8) : Nat :=
  if 100 ≤ pct.toNat then 0 else (100 - pct.toNat) * 7

/-- The components of a score. -/
structure ScoreParts where
  edge : Nat
  latency : Nat
  stability : Nat
  confidence : Nat
  throughput : Nat
  tunnel : Nat
  deriving DecidableEq, Repr

def tunnelPoints (state : UInt8) : Nat :=
  if state = tunnelPassed then 30000 else if tunnelStateFailed state then 0 else 15000

/-- The components that `qn_cf_score_policy` works out, where it gets so far. -/
def scoreParts (r : CfRecord) : Option ScoreParts :=
  if r.terminalOutcome ≠ termSuccess then none
  else match edgePoints r.highestRungReached with
    | none => none
    | some edge => some
      { edge := edge + if r.verified ∧ r.colo ≠ [] then 500 else 0
        latency := medianQuality r.rttMedUs + p90Quality r.rttP90Us
        stability := jitterQuality r.rttDeltaMeanUs + lossQuality r.lossPct +
          if r.highestRungReached = rungStable ∧ r.idleHeldMs ≠ 0 then 50 else 0
        confidence := if 1000 < r.confidence.toNat then 1000 else r.confidence.toNat
        throughput := if 100000 ≤ r.kbps.toNat then 1000 else r.kbps.toNat / 100
        tunnel := tunnelPoints r.tunnelState }

/-- The sum of `qn_cf_score_policy`. -/
def ScoreParts.weigh (p : ScoreParts) : RankPolicy → Nat
  | .latency => p.tunnel + p.edge + p.latency * 2 + p.stability / 2 + p.confidence / 2
  | .stability => p.tunnel + p.edge + p.stability * 2 + p.latency / 2 + p.confidence
  | .throughput => p.tunnel + p.edge + p.throughput * 3 + p.latency / 2 + p.stability / 2
  | .balanced => p.tunnel + p.edge + p.latency + p.stability + p.confidence + p.throughput

def CfRecord.clearScore (r : CfRecord) : CfRecord :=
  { r with scoreVersion := scoreVersionNow, scoreEdge := 0, scoreLatency := 0, scoreStability := 0,
           scoreConfidence := 0, scoreThroughput := 0, scoreTunnel := 0 }

/-- `qn_cf_score_policy`: the score, and the record with its components. -/
def cfScorePolicy (r : CfRecord) (policy : RankPolicy) : UInt32 × CfRecord :=
  match scoreParts r with
  | none => (0, r.clearScore)
  | some p =>
    (UInt32.ofNat (p.weigh policy),
     { r.clearScore with
         scoreEdge := UInt16.ofNat p.edge, scoreLatency := UInt16.ofNat p.latency,
         scoreStability := UInt16.ofNat p.stability, scoreConfidence := UInt16.ofNat p.confidence,
         scoreThroughput := UInt16.ofNat p.throughput, scoreTunnel := UInt16.ofNat p.tunnel })

end Qanat
