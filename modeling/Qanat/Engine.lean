import Qanat.RingFifo
import Qanat.Task

namespace Qanat

inductive Errno
  | zero | connRefused | timedOut | connReset | connAborted | pipe | hostUnreach | netUnreach
  | hostDown | netDown | netReset | canceled | other (code : Nat)
  deriving DecidableEq

inductive Result
  | pending | opened | refused | timeout | unreach | reset | error | cancelled
  deriving DecidableEq

inductive FailureOrigin
  | clear | localSide | peer | path | protocol | unsupported | cancelled
  deriving DecidableEq

def errnoToResult : Errno → Result
  | .zero => .opened
  | .connRefused => .refused
  | .timedOut => .timeout
  | .connReset | .connAborted | .pipe => .reset
  | .hostUnreach | .netUnreach | .hostDown | .netDown | .netReset => .unreach
  | .canceled => .cancelled
  | .other _ => .error

def errnoOrigin : Errno → FailureOrigin
  | .zero | .canceled => .clear
  | .connRefused | .connReset | .connAborted | .pipe => .peer
  | .timedOut | .hostUnreach | .netUnreach | .hostDown | .netDown | .netReset => .path
  | .other _ => .localSide

def resultOrigin : Result → FailureOrigin
  | .refused | .reset => .peer
  | .timeout | .unreach => .path
  | .error => .localSide
  | _ => .clear

/-- The calls of `probe_finish` and `probe_finish_obs` in the handlers of a probe under way. -/
inductive Ending
  | opened
  | error
  | failed (err : Errno)
  | garbage
  | peer
  | expired

def Ending.result : Ending → Result
  | .error => .error
  | .failed err => errnoToResult err
  | .opened | .garbage | .peer => .opened
  | .expired => .timeout

def Ending.origin : Ending → FailureOrigin
  | .opened => resultOrigin .opened
  | .error => resultOrigin .error
  | .failed err => errnoOrigin err
  | .garbage => .protocol
  | .peer => .peer
  | .expired => .path

/-- A job with the index it was drawn for; the engine hands the index on with the job and never
reads it. -/
structure Drawn (ι : Type) where
  idx : Nat
  job : ι
  deriving DecidableEq

structure Event (ι : Type) where
  job : Drawn ι
  result : Result
  origin : FailureOrigin
  deriving DecidableEq

structure WStats where
  claimed : Nat
  completed : Nat
  skipped : Nat
  unattempted : Nat
  localTerminalFailures : Nat

/-- Where a worker stands in `worker_main`, `worker_fill` and `worker_retire`. -/
inductive WorkerPc (ι : Type)
  | top
  | fill (window : Nat)
  | draw (window : Nat)
  | ask (window idx : Nat)
  | launch (window : Nat) (d : Drawn ι)
  | settle
  | wait
  | dispatch
  | retireSlot (s : Nat)
  | retirePending
  | retireTail
  | done

/-- `qn_worker`. A slot holds its job from the launch to the release; the head of `freelist` is the
slot handed out next. `asked` records every call of `next` with its answer. -/
structure Worker (ι : Type) where
  nslots : Nat
  slots : List (Option (Drawn ι))
  freelist : List Nat
  inflight : Nat
  pending : Option (Drawn ι)
  pendingTries : Nat
  claimCur : Nat
  claimEnd : Nat
  drained : Bool
  drainReason : TaskNext Unit
  stats : WStats
  out : RingSys (Event ι)
  pc : WorkerPc ι
  asked : List (Nat × TaskNext ι)

inductive EngineStatus
  | running | complete | stopped | cancelled | fatal
  deriving DecidableEq

/-- The fields of `qn_engine` that its threads share, and the domain of the task. -/
structure Shared where
  domain : Nat
  cursor : Nat
  stopping : Bool
  stopCondition : Bool
  fatal : Bool
  fatalWorker : Option Nat
  started : Bool
  status : EngineStatus

def claimChunk : Nat := 64

def launchTries : Nat := 64

section Worker

variable {ι : Type}

/-- The counters of a terminal event. -/
def WStats.finish (s : WStats) (origin : FailureOrigin) : WStats :=
  { s with
    completed := s.completed + 1
    localTerminalFailures := s.localTerminalFailures + if origin = .localSide then 1 else 0 }

def probeRelease (w : Worker ι) (s : Nat) : Worker ι :=
  { w with slots := w.slots.set s none, freelist := s :: w.freelist, inflight := w.inflight - 1 }

def probeFinishObs (w : Worker ι) (s : Nat) (d : Drawn ι) (res : Result) (origin : FailureOrigin) :
    Option (Worker ι) :=
  (ringStep w.out (.push ⟨d, res, origin⟩)).map fun out =>
    probeRelease { w with stats := w.stats.finish origin, out := out } s

def jobTerminal (w : Worker ι) (d : Drawn ι) (res : Result) (origin : FailureOrigin) :
    Option (Worker ι) :=
  (ringStep w.out (.push ⟨d, res, origin⟩)).map fun out =>
    { w with stats := w.stats.finish origin, out := out }

def jobAbandon (w : Worker ι) (d : Drawn ι) : Option (Worker ι) :=
  jobTerminal w d .error .localSide

def engineFatal (e : Shared) (id : Nat) : Shared :=
  match e.fatalWorker with
  | none => { e with fatalWorker := some id, fatal := true, stopping := true }
  | some _ => { e with stopping := true }

/-- `claim_next` up to the drawn index; the test against the domain is the caller's. -/
def claimNext (e : Shared) (w : Worker ι) : Shared × Worker ι × Nat :=
  if w.claimEnd ≤ w.claimCur then
    ({ e with cursor := e.cursor + claimChunk },
      { w with claimCur := e.cursor + 1, claimEnd := e.cursor + claimChunk }, e.cursor)
  else (e, { w with claimCur := w.claimCur + 1 }, w.claimCur)

/-- The attempt of `probe_launch`: refused by the local system, under way, or answered at once. -/
inductive Launch
  | failed
  | flying
  | finished (err : Errno)

inductive Waited
  | failed | interrupted | ready

inductive WorkerAct (ι : Type)
  | loop (stop : Bool) (window : Nat)
  | fill (j : Nat) (tokens : Bool)
  | claim
  | answer (rc : TaskNext ι)
  | launch (r : Launch)
  | settle
  | wait (r : Waited)
  | finish (s : Nat) (e : Ending)
  | resume
  | retire (flag : Bool)

/-- The top of the loop of `worker_main`; a raised flag may be seen late. -/
def execLoop (e : Shared) (w : Worker ι) (stop : Bool) (window : Nat) : Option (Worker ι) :=
  if stop then
    if e.stopping then some { w with pc := .retireSlot 0 } else none
  else some { w with pc := .fill window }

/-- The tests at the head of the loop of `worker_fill`. -/
def execFill (w : Worker ι) (window j : Nat) (tokens : Bool) : Option (Worker ι) :=
  if w.inflight < window ∧ w.freelist ≠ [] then
    (ringStep w.out (.len j)).map fun out =>
      let w := { w with out := out }
      if out.ring.mask + 1 ≤ ringLen out + UInt32.ofNat w.inflight + 1 then { w with pc := .settle }
      else
        match w.pending with
        | some d => if tokens then { w with pc := .launch window d } else { w with pc := .settle }
        | none =>
          if w.drained then { w with pc := .settle }
          else if tokens then { w with pc := .draw window } else { w with pc := .settle }
  else some { w with pc := .settle }

def execClaim (e : Shared) (w : Worker ι) (window : Nat) : Shared × Worker ι :=
  match claimNext e w with
  | (e, w, idx) =>
    if e.domain = 0 ∨ idx < e.domain then
      (e, { w with stats := { w.stats with claimed := w.stats.claimed + 1 }, pc := .ask window idx })
    else (e, { w with drained := true, drainReason := .exhausted, pc := .settle })

/-- The task declines an index. -/
def decline (w : Worker ι) (reason : TaskNext Unit) : Worker ι :=
  { w with
    stats := { w.stats with skipped := w.stats.skipped + 1 }
    drained := true
    drainReason := reason
    pc := .settle }

def execAnswer (e : Shared) (id : Nat) (w : Worker ι) (window idx : Nat) (rc : TaskNext ι) :
    Shared × Worker ι :=
  let w := { w with asked := w.asked ++ [(idx, rc)] }
  match rc with
  | .job j => (e, { w with pc := .launch window ⟨idx, j⟩ })
  | .exhausted => (e, decline w .exhausted)
  | .stopCondition => ({ e with stopCondition := true }, decline w .stopCondition)
  | .cancelled => ({ e with stopping := true }, decline w .cancelled)
  | .fatal => (engineFatal e id, decline w .fatal)

/-- A launch that failed locally is retried while others are in flight, and otherwise a bounded
number of times. -/
def launchFailed (w : Worker ι) (window : Nat) (d : Drawn ι) : Option (Worker ι) :=
  let w := { w with pending := some d }
  if w.inflight ≠ 0 then some { w with pc := .settle }
  else
    let w := { w with pendingTries := w.pendingTries + 1 }
    if w.pendingTries < launchTries then some { w with pc := .settle }
    else
      (jobAbandon w d).map fun w => { w with pending := none, pendingTries := 0, pc := .fill window }

/-- The slot a launch takes. -/
def probeStart (w : Worker ι) (s : Nat) (free : List Nat) (d : Drawn ι) : Worker ι :=
  { w with slots := w.slots.set s (some d), freelist := free, inflight := w.inflight + 1 }

def execLaunch (w : Worker ι) (window : Nat) (d : Drawn ι) (r : Launch) : Option (Worker ι) :=
  match r, w.freelist with
  | .flying, s :: free =>
    some { probeStart w s free d with pending := none, pendingTries := 0, pc := .fill window }
  | .finished err, s :: free =>
    (probeFinishObs (probeStart w s free d) s d (errnoToResult err) (errnoOrigin err)).map fun w =>
      { w with pending := none, pendingTries := 0, pc := .fill window }
  | _, _ => launchFailed w window d

def execSettle (w : Worker ι) : Worker ι :=
  if w.drained = true ∧ w.pending = none ∧ w.inflight = 0 then { w with pc := .retireSlot 0 }
  else { w with pc := .wait }

def execWait (e : Shared) (id : Nat) (w : Worker ι) : Waited → Shared × Worker ι
  | .failed => (engineFatal e id, { w with pc := .retireSlot 0 })
  | .interrupted => (e, { w with pc := .top })
  | .ready => (e, { w with pc := .dispatch })

def execRetireSlot (w : Worker ι) (s : Nat) : Option (Worker ι) :=
  if s < w.nslots then
    match w.slots[s]? with
    | some (some d) =>
      (probeFinishObs w s d .cancelled .clear).map fun w => { w with pc := .retireSlot (s + 1) }
    | _ => some { w with pc := .retireSlot (s + 1) }
  else some { w with pc := .retirePending }

def execRetirePending (e : Shared) (w : Worker ι) (fatal : Bool) : Option (Worker ι) :=
  if fatal ∧ e.fatal = false then none
  else
    match w.pending with
    | some d =>
      (jobTerminal w d (if fatal then .error else .cancelled)
        (if fatal then .localSide else .clear)).map fun w => { w with pending := none, pc := .retireTail }
    | none => some { w with pc := .retireTail }

def clip (domain x : Nat) : Nat :=
  if domain = 0 then x else min x domain

def execRetireTail (e : Shared) (w : Worker ι) (stopCondition : Bool) : Option (Worker ι) :=
  if stopCondition ∧ e.stopCondition = false then none
  else
    let lost := clip e.domain w.claimEnd - w.claimCur
    let deliberate := w.drainReason = .exhausted ∨ w.drainReason = .stopCondition ∨ stopCondition
    some { w with
      stats := { w.stats with
        claimed := w.stats.claimed + lost
        skipped := w.stats.skipped + if deliberate then lost else 0
        unattempted := w.stats.unattempted + if deliberate then 0 else lost }
      claimCur := w.claimEnd
      pc := .done }

def workerExec (e : Shared) (id : Nat) (w : Worker ι) : WorkerAct ι → Option (Shared × Worker ι)
  | .loop stop window =>
    match w.pc with
    | .top => (execLoop e w stop window).map (e, ·)
    | _ => none
  | .fill j tokens =>
    match w.pc with
    | .fill window => (execFill w window j tokens).map (e, ·)
    | _ => none
  | .claim =>
    match w.pc with
    | .draw window => some (execClaim e w window)
    | _ => none
  | .answer rc =>
    match w.pc with
    | .ask window idx => some (execAnswer e id w window idx rc)
    | _ => none
  | .launch r =>
    match w.pc with
    | .launch window d => (execLaunch w window d r).map (e, ·)
    | _ => none
  | .settle =>
    match w.pc with
    | .settle => some (e, execSettle w)
    | _ => none
  | .wait r =>
    match w.pc with
    | .wait => some (execWait e id w r)
    | _ => none
  | .finish s ending =>
    match w.pc, w.slots[s]? with
    | .dispatch, some (some d) => (probeFinishObs w s d ending.result ending.origin).map (e, ·)
    | _, _ => none
  | .resume =>
    match w.pc with
    | .dispatch => some (e, { w with pc := .top })
    | _ => none
  | .retire flag =>
    match w.pc with
    | .retireSlot s => (execRetireSlot w s).map (e, ·)
    | .retirePending => (execRetirePending e w flag).map (e, ·)
    | .retireTail => (execRetireTail e w flag).map (e, ·)
    | _ => none

/-- A worker goes on only when its push has returned. -/
def workerStep (e : Shared) (id : Nat) (w : Worker ι) (a : WorkerAct ι) : Option (Shared × Worker ι) :=
  match w.out.prod with
  | .idle => workerExec e id w a
  | _ => none

end Worker

end Qanat
