import Qanat.Engine

namespace Qanat

def ringMin : UInt32 := 1024

/-- The loop of `ring_capacity`; it cannot double more often than there is fuel. -/
def ringGrow : Nat → UInt32 → UInt32 → UInt32
  | 0, cap, _ => cap
  | fuel + 1, cap, need =>
    if cap < need ∧ cap ≤ 0xFFFFFFFF / 2 then ringGrow fuel (cap <<< 1) need else cap

def ringCapacity (slots : UInt32) : UInt32 :=
  ringGrow 32 ringMin (if slots ≤ (0xFFFFFFFF - 2) / 2 then slots * 2 + 2 else 0xFFFFFFFF)

/-- The fields of `qn_config` that size the engine. -/
structure EngineConfig where
  workers : Nat
  rate : Nat
  concurrency : Nat
  selectBackend : Bool

/-- The workers asked for; `topologyWorkers` is what the system reports. -/
def requestedWorkers (cfg : EngineConfig) (topologyWorkers : Nat) : Nat :=
  let nworkers := min (max (if cfg.workers ≠ 0 then cfg.workers else topologyWorkers) 1) 16
  if cfg.rate ≠ 0 ∧ cfg.rate < nworkers then cfg.rate else nworkers

/-- The sockets the process may have open; `nofile` is its limit of descriptors. -/
def maxSafe (cfg : EngineConfig) (nofile : Nat) : Nat :=
  let fdCap := if 128 < nofile then nofile - 128 else max (nofile / 2) 1
  if cfg.selectBackend then min (min fdCap 4096) (1024 - 128) else min fdCap 4096

def engineConcurrency (cfg : EngineConfig) (nworkers nofile : Nat) : Option Nat :=
  if cfg.concurrency = 0 then
    some (max (min (maxSafe cfg nofile) (min 1024 (max 64 (nworkers * 128)))) 1)
  else if maxSafe cfg nofile < cfg.concurrency then none
  else some (max cfg.concurrency 1)

/-- The sizes computed by `qn_engine_init`: the slots that decide the ring, and the slots of every
worker. -/
def engineInit (cfg : EngineConfig) (topologyWorkers nofile : Nat) : Option (Nat × List Nat) :=
  let requested := requestedWorkers cfg topologyWorkers
  (engineConcurrency cfg requested nofile).map fun concurrency =>
    let nworkers := min requested (max (concurrency / 16) 1)
    ((concurrency + nworkers - 1) / nworkers,
      (List.range nworkers).map fun i =>
        concurrency / nworkers + if i < concurrency % nworkers then 1 else 0)

structure Engine (ι : Type) where
  shared : Shared
  workers : List (Worker ι)

inductive Flag
  | stopping | stopCondition | fatal

def Shared.raise (e : Shared) : Flag → Shared
  | .stopping => { e with stopping := true }
  | .stopCondition => { e with stopCondition := true }
  | .fatal => { e with fatal := true }

def WorkerPc.isDone {ι : Type} : WorkerPc ι → Bool
  | .done => true
  | _ => false

section Engine

variable {ι : Type}

/-- A worker as `qn_engine_start` leaves it. -/
def workerStart (r : Ring (Event ι)) (nslots : Nat) : Worker ι :=
  { nslots := nslots
    slots := List.replicate nslots none
    freelist := List.range nslots
    inflight := 0
    pending := none
    pendingTries := 0
    claimCur := 0
    claimEnd := 0
    drained := false
    drainReason := .job ()
    stats := ⟨0, 0, 0, 0, 0⟩
    out := ringStart r
    pc := .top
    asked := [] }

/-- `qn_engine_start` after `qn_engine_init` has given every worker its slots and its ring. -/
def engineStart (perWorker : UInt32) (buf : UInt32 → Event ι) (nslots : List Nat) (domain : Nat) :
    Option (Engine ι) :=
  (ringInit (ringCapacity perWorker) buf).map fun r =>
    ⟨⟨domain, 0, false, false, false, none, true, .running⟩, nslots.map (workerStart r)⟩

def Engine.joined (c : Engine ι) : Bool :=
  c.workers.all fun w => w.pc.isDone

def settledStatus (e : Shared) : EngineStatus :=
  if e.fatal then .fatal
  else if e.stopping then .cancelled
  else if e.stopCondition then .stopped
  else .complete

/-- `qn_engine_join`; it waits for every worker. -/
def engineJoin (c : Engine ι) : Option (Engine ι) :=
  if c.shared.started then
    if c.joined then some { c with shared := { c.shared with started := false, status := settledStatus c.shared } }
    else none
  else some c

/-- `ring` carries the operations of a push under way and of the owner's pops. -/
inductive EngineAct (ι : Type)
  | worker (i : Nat) (a : WorkerAct ι)
  | ring (i : Nat) (a : RingAct (Event ι))
  | raise (f : Flag)
  | join

def RingAct.ofCall {α : Type} : RingAct α → Bool
  | .len _ => true
  | .push _ => true
  | _ => false

def engineStep (c : Engine ι) : EngineAct ι → Option (Engine ι)
  | .worker i a =>
    match c.workers[i]? with
    | none => none
    | some w => (workerStep c.shared i w a).map fun r => ⟨r.1, c.workers.set i r.2⟩
  | .ring i a =>
    match c.workers[i]? with
    | none => none
    | some w =>
      if a.ofCall then none
      else (ringStep w.out a).map fun out => { c with workers := c.workers.set i { w with out := out } }
  | .raise f => some { c with shared := c.shared.raise f }
  | .join => engineJoin c

end Engine

variable {ι : Type}

/-- What an operation of a worker can be: where the worker stands, and what it does there. -/
inductive WorkerMove (e : Shared) (id : Nat) (w : Worker ι) : WorkerAct ι → Shared → Worker ι → Prop
  | loop {stop : Bool} {window : Nat} {w' : Worker ι} (hpc : w.pc = .top)
      (hex : execLoop e w stop window = some w') : WorkerMove e id w (.loop stop window) e w'
  | fill {window j : Nat} {tokens : Bool} {w' : Worker ι} (hpc : w.pc = .fill window)
      (hex : execFill w window j tokens = some w') : WorkerMove e id w (.fill j tokens) e w'
  | claim {window : Nat} {e' : Shared} {w' : Worker ι} (hpc : w.pc = .draw window)
      (hex : execClaim e w window = (e', w')) : WorkerMove e id w .claim e' w'
  | answer {window idx : Nat} {rc : TaskNext ι} {e' : Shared} {w' : Worker ι} (hpc : w.pc = .ask window idx)
      (hex : execAnswer e id w window idx rc = (e', w')) : WorkerMove e id w (.answer rc) e' w'
  | launch {window : Nat} {d : Drawn ι} {r : Launch} {w' : Worker ι} (hpc : w.pc = .launch window d)
      (hex : execLaunch w window d r = some w') : WorkerMove e id w (.launch r) e w'
  | settle (hpc : w.pc = .settle) : WorkerMove e id w .settle e (execSettle w)
  | wait {r : Waited} {e' : Shared} {w' : Worker ι} (hpc : w.pc = .wait)
      (hex : execWait e id w r = (e', w')) : WorkerMove e id w (.wait r) e' w'
  | finish {s : Nat} {d : Drawn ι} {ending : Ending} {w' : Worker ι} (hpc : w.pc = .dispatch)
      (hs : w.slots[s]? = some (some d))
      (hex : probeFinishObs w s d ending.result ending.origin = some w') :
      WorkerMove e id w (.finish s ending) e w'
  | resume (hpc : w.pc = .dispatch) : WorkerMove e id w .resume e { w with pc := .top }
  | retireSlot {s : Nat} {flag : Bool} {w' : Worker ι} (hpc : w.pc = .retireSlot s)
      (hex : execRetireSlot w s = some w') : WorkerMove e id w (.retire flag) e w'
  | retirePending {flag : Bool} {w' : Worker ι} (hpc : w.pc = .retirePending)
      (hex : execRetirePending e w flag = some w') : WorkerMove e id w (.retire flag) e w'
  | retireTail {flag : Bool} {w' : Worker ι} (hpc : w.pc = .retireTail)
      (hex : execRetireTail e w flag = some w') : WorkerMove e id w (.retire flag) e w'

theorem map_pair {α β : Type} {x : Option α} {a : α} {b b' : β} (h : x.map (b, ·) = some (b', a)) :
    b = b' ∧ x = some a := by
  cases x with
  | none => simp at h
  | some y => simpa using h

theorem workerStep_move {e e' : Shared} {id : Nat} {w w' : Worker ι} {a : WorkerAct ι}
    (h : workerStep e id w a = some (e', w')) : w.out.prod = .idle ∧ WorkerMove e id w a e' w' := by
  unfold workerStep at h
  split at h
  next hidle =>
    refine ⟨hidle, ?_⟩
    cases a with
    | loop =>
      simp only [workerExec] at h
      split at h
      next hpc =>
        obtain ⟨rfl, hex⟩ := map_pair h
        exact .loop hpc hex
      next => simp at h
    | fill =>
      simp only [workerExec] at h
      split at h
      next hpc =>
        obtain ⟨rfl, hex⟩ := map_pair h
        exact .fill hpc hex
      next => simp at h
    | claim =>
      simp only [workerExec] at h
      split at h
      next hpc => exact .claim hpc (Option.some.inj h)
      next => simp at h
    | answer =>
      simp only [workerExec] at h
      split at h
      next hpc => exact .answer hpc (Option.some.inj h)
      next => simp at h
    | launch =>
      simp only [workerExec] at h
      split at h
      next hpc =>
        obtain ⟨rfl, hex⟩ := map_pair h
        exact .launch hpc hex
      next => simp at h
    | settle =>
      simp only [workerExec] at h
      split at h
      next hpc =>
        obtain ⟨rfl, rfl⟩ := Prod.mk.inj (Option.some.inj h)
        exact .settle hpc
      next => simp at h
    | wait =>
      simp only [workerExec] at h
      split at h
      next hpc => exact .wait hpc (Option.some.inj h)
      next => simp at h
    | finish =>
      simp only [workerExec] at h
      split at h
      next hpc hs =>
        obtain ⟨rfl, hex⟩ := map_pair h
        exact .finish hpc hs hex
      next => simp at h
    | resume =>
      simp only [workerExec] at h
      split at h
      next hpc =>
        obtain ⟨rfl, rfl⟩ := Prod.mk.inj (Option.some.inj h)
        exact .resume hpc
      next => simp at h
    | retire =>
      simp only [workerExec] at h
      split at h
      next hpc =>
        obtain ⟨rfl, hex⟩ := map_pair h
        exact .retireSlot hpc hex
      next hpc =>
        obtain ⟨rfl, hex⟩ := map_pair h
        exact .retirePending hpc hex
      next hpc =>
        obtain ⟨rfl, hex⟩ := map_pair h
        exact .retireTail hpc hex
      next => simp at h
  next => simp at h

end Qanat
