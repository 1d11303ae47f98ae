import Qanat.Engine
import Qanat.General.Transition
import Qanat.Perm

namespace Qanat

/-- `PORT_ST_*`. -/
inductive PortState
  | unknown | opened | closed | filtered | unreachable | localError | cancelled | reset
  deriving DecidableEq, Repr

/-- `port_phase`. -/
inductive PortPhase
  | sweep | retry | banner | done
  deriving DecidableEq, Repr

structure PortRecord where
  port : Nat
  result : Result
  rttUs : Nat
  banner : List UInt8
  deriving DecidableEq

/-- `port_scan`; `hist` is what went into the histogram, and `retries` the setting. -/
structure PortScan where
  target : Addr
  ports : List Nat
  perm : Perm
  pstate : Nat → PortState
  retry : List Nat
  found : List PortRecord
  opencap : Nat
  scanned : Nat
  refused : Nat
  filtered : Nat
  unreachable : Nat
  localErrors : Nat
  cancelled : Nat
  reset : Nat
  phase : PortPhase
  step : Int
  retryRound : Nat
  retries : Nat
  hist : List Nat

/-- The part of `qn_event` that the scan reads. -/
structure PortEvent where
  job : Job
  result : Result
  rttUs : Nat
  body : List UInt8

def psNextSweep (s : PortScan) (idx : Nat) : TaskNext Job :=
  if s.ports.length ≤ idx then .exhausted
  else .job ⟨s.target, s.ports.getD (permApply s.perm idx) 0, .tcp, 0⟩

def psNextRetry (s : PortScan) (idx : Nat) : TaskNext Job :=
  if s.retry.length ≤ idx then .exhausted else .job ⟨s.target, s.retry.getD idx 0, .tcp, 0⟩

def psNextBanner (s : PortScan) (idx : Nat) : TaskNext Job :=
  match s.found[idx]? with
  | none => .exhausted
  | some r => .job ⟨s.target, r.port, .banner, idx⟩

/-- `ps_record_open`. -/
def psRecordOpen (s : PortScan) (port rttUs : Nat) : PortScan :=
  if s.opencap ≤ s.found.length then s else { s with found := s.found ++ [⟨port, .opened, rttUs, []⟩] }

def PortScan.setState (s : PortScan) (port : Nat) (st : PortState) : PortScan :=
  { s with pstate := Function.update s.pstate port st }

/-- `if (prev == PORT_ST_FILTERED && s->filtered) s->filtered--;`. -/
def PortScan.unfilter (s : PortScan) (prev : PortState) : PortScan :=
  if prev = .filtered ∧ s.filtered ≠ 0 then { s with filtered := s.filtered - 1 } else s

def PortScan.addHist (s : PortScan) (rttUs : Nat) : PortScan :=
  if rttUs ≠ 0 then { s with hist := s.hist ++ [rttUs] } else s

/-- `ps_on_result`. -/
def psOnResult (s : PortScan) (ev : PortEvent) : PortScan :=
  let port := ev.job.port
  let prev := s.pstate port
  if ev.result = .cancelled then
    let s := if prev = .unknown then s.setState port .cancelled else s
    { s with cancelled := s.cancelled + 1 }
  else
    let s := { s with scanned := s.scanned + 1 }
    match ev.result with
    | .opened =>
      let s := if prev ≠ .opened then (psRecordOpen (s.setState port .opened) port ev.rttUs).unfilter prev else s
      s.addHist ev.rttUs
    | .refused =>
      let s :=
        if prev ≠ .closed then
          let s := (s.unfilter prev).setState port .closed
          { s with refused := s.refused + 1 }
        else s
      s.addHist ev.rttUs
    | .timeout =>
      if prev = .unknown then
        let s := s.setState port .filtered
        { s with filtered := s.filtered + 1 }
      else s
    | .unreach =>
      if prev = .unknown ∨ prev = .filtered then
        let s := (s.unfilter prev).setState port .unreachable
        { s with unreachable := s.unreachable + 1 }
      else s
    | .reset =>
      if prev = .unknown ∨ prev = .filtered then
        let s := (s.unfilter prev).setState port .reset
        { s with reset := s.reset + 1 }
      else s
    | _ =>
      if prev = .unknown ∨ prev = .filtered then
        let s := (s.unfilter prev).setState port .localError
        { s with localErrors := s.localErrors + 1 }
      else s

/-- The text `ps_on_banner` keeps of a body: the first line, as far as there is room, with dots for what
cannot be printed. -/
def bannerText (body : List UInt8) : List UInt8 :=
  ((body.take 55).takeWhile fun c => c ≠ 13 && c ≠ 10).map fun c => if 0x20 ≤ c ∧ c < 0x7F then c else 46

/-- `ps_on_banner`. -/
def psOnBanner (s : PortScan) (ev : PortEvent) : PortScan :=
  if s.found.length ≤ ev.job.token ∨ ev.body = [] then s
  else { s with found := s.found.modify ev.job.token fun r => { r with banner := bannerText ev.body } }

/-- The ports of a list, each at its first place. -/
def distinctPorts : List UInt16 → List UInt16 → List UInt16
  | _, [] => []
  | seen, p :: ps => if p ∈ seen then distinctPorts seen ps else p :: distinctPorts (p :: seen) ps

/-- `port_scan_init`, once the target is resolved and the ports are parsed. -/
def portScanInit (target : Addr) (parsed : List UInt16) (master : UInt64) (retries : Nat) : PortScan :=
  let ports := (distinctPorts [] parsed).map UInt16.toNat
  { target := target
    ports := ports
    perm := permInit ports.length (seedDerive master 0x504F52542D4F5244)
    pstate := fun _ => .unknown
    retry := []
    found := []
    opencap := ports.length
    scanned := 0
    refused := 0
    filtered := 0
    unreachable := 0
    localErrors := 0
    cancelled := 0
    reset := 0
    phase := .sweep
    step := -1
    retryRound := 0
    retries := retries
    hist := [] }

/-- `ps_build_retry`. -/
def psBuildRetry (s : PortScan) : PortScan :=
  { s with retry := s.ports.filter fun p => s.pstate p = .filtered }

/-- The loop of `port_scan_next_phase`: the scan, and whether there is another phase. -/
def nextPhaseLoop : Nat → PortScan → Option (PortScan × Bool)
  | 0, _ => none
  | fuel + 1, s =>
    let s := { s with step := s.step + 1 }
    if s.step = (0 : Int) then some ({ s with phase := .sweep }, true)
    else if s.retryRound < s.retries then
      let s := psBuildRetry { s with retryRound := s.retryRound + 1 }
      if s.retry = [] then nextPhaseLoop fuel s else some ({ s with phase := .retry }, true)
    else if s.phase ≠ .banner ∧ s.found ≠ [] then some ({ s with phase := .banner }, true)
    else some ({ s with phase := .done }, false)

/-- `port_scan_next_phase`; no result stands for a loop that goes on for ever. -/
def portScanNextPhase (s : PortScan) : Option (PortScan × Bool) :=
  nextPhaseLoop (s.retries - s.retryRound + 1) s

/-- The task of a phase: its jobs, and how many there are. -/
def PortScan.job (s : PortScan) (idx : Nat) : TaskNext Job :=
  match s.phase with
  | .sweep => psNextSweep s idx
  | .retry => psNextRetry s idx
  | .banner => psNextBanner s idx
  | .done => .exhausted

def PortScan.total (s : PortScan) : Nat :=
  match s.phase with
  | .sweep => s.ports.length
  | .retry => s.retry.length
  | .banner => s.found.length
  | .done => 0

def PortScan.onEvent (s : PortScan) (ev : PortEvent) : PortScan :=
  if s.phase = .banner then psOnBanner s ev else psOnResult s ev

/-- A scan in use: the jobs of its phase without an event so far, and whether there are no more phases. The
last two fields are its history: the ports heard of, and the calls of `port_scan_next_phase`. -/
structure PortRun where
  scan : PortScan
  pending : List Nat
  ended : Bool
  observed : List (Nat × Result)
  calls : Nat

inductive PortAct
  | nextPhase
  | event (idx : Nat) (result : Result) (rttUs : Nat) (body : List UInt8)

def PortRun.start (s : PortScan) : PortRun :=
  ⟨s, [], false, [], 0⟩

/-- The next phase begins, whether or not all jobs of the last one had their events; or the event of a job
comes in. -/
def PortRun.step (r : PortRun) : PortAct → Option PortRun
  | .nextPhase =>
    if r.ended then none
    else (portScanNextPhase r.scan).map fun x =>
      { r with scan := x.1, pending := if x.2 then List.range x.1.total else [], ended := !x.2, calls := r.calls + 1 }
  | .event idx result rttUs body =>
    if idx ∈ r.pending then
      match r.scan.job idx with
      | .job j =>
        some { r with
          scan := r.scan.onEvent ⟨j, result, rttUs, body⟩
          pending := r.pending.erase idx
          observed := if r.scan.phase = .banner then r.observed else r.observed ++ [(j.port, result)] }
      | _ => none
    else none

end Qanat
