import Qanat.EngineInv
import Qanat.EngineRun

namespace Qanat

variable {ι : Type}

/-- What a worker has settled at each point of `worker_fill` and `worker_retire`. -/
def WorkerPcOk (w : Worker ι) : WorkerPc ι → Prop
  | .draw _ | .ask _ _ => w.pending = none
  | .retireSlot s => ∀ t < s, t < w.nslots → w.slots[t]? = some none
  | .retirePending => w.inflight = 0
  | .retireTail => w.inflight = 0 ∧ w.pending = none
  | .done => w.inflight = 0 ∧ w.pending = none ∧ w.out.prod = .idle ∧ w.claimCur = w.claimEnd
  | _ => True

structure WorkerAt (cap : Nat) (pc : WorkerPc ι) (w : Worker ι) : Prop where
  core : WorkerCore cap ((pc.owed w.pending).length + pc.reserved) ((pc.owed w.pending).length + pc.asking)
    (pc.owed w.pending) w
  pcOk : WorkerPcOk w pc

def WorkerInv (cap : Nat) (w : Worker ι) : Prop :=
  WorkerAt cap w.pc w

section Steps

variable {cap : Nat} {w w' : Worker ι} {e : Shared}

theorem workerInv_loop (h : WorkerAt cap .top w) {stop : Bool} {window : Nat}
    (hex : execLoop e w stop window = some w') : WorkerInv cap w' := by
  unfold execLoop at hex
  split at hex
  next =>
    split at hex
    next =>
      obtain rfl := Option.some.inj hex
      exact ⟨{ h.core with }, fun t ht => absurd ht (Nat.not_lt_zero t)⟩
    next => simp at hex
  next =>
    obtain rfl := Option.some.inj hex
    exact ⟨{ h.core with }, trivial⟩

theorem workerInv_fill {window : Nat} (h : WorkerAt cap (.fill window) w) (hidle : w.out.prod = .idle)
    {j : Nat} {tokens : Bool} (hex : execFill w window j tokens = some w') : WorkerInv cap w' := by
  unfold execFill at hex
  split at hex
  next =>
    obtain ⟨out, hlen, rfl⟩ := Option.map_eq_some_iff.mp hex
    obtain ⟨hroom, hsent⟩ := h.core.room.other rfl hlen
    have hcore : WorkerCore cap w.pending.toList.length w.pending.toList.length w.pending.toList
        { w with out := out } := by
      refine { h.core with room := hroom, jobs := ?_ }
      have hjobs := h.core.jobs
      dsimp only [Worker.drawn] at hjobs ⊢
      rw [hsent]
      exact hjobs
    dsimp only
    split
    next => exact ⟨{ hcore with }, trivial⟩
    next hspace =>
      have hidle' := ringStep_idle hidle rfl hlen
      have hmore := (hcore.room.mono (Nat.le_add_right _ _)).reserve hidle' (by simpa using hspace)
      split
      next d hp =>
        split
        next =>
          rw [hp] at hcore
          exact ⟨{ hcore with }, trivial⟩
        next => exact ⟨{ hcore with }, trivial⟩
      next hp =>
        split
        next => exact ⟨{ hcore with }, trivial⟩
        next =>
          split
          next => exact ⟨{ hcore with room := hmore.mono (by simp [WorkerPc.owed, WorkerPc.reserved, hp]) }, hp⟩
          next => exact ⟨{ hcore with }, trivial⟩
  next =>
    obtain rfl := Option.some.inj hex
    exact ⟨{ h.core with }, trivial⟩

theorem claimNext_core (e : Shared) {n k : Nat} {hand : List (Drawn ι)} (h : WorkerCore cap n k hand w) :
    WorkerCore cap n k hand (claimNext e w).2.1 ∧ (claimNext e w).2.1.pending = w.pending := by
  unfold claimNext
  split
  next => exact ⟨{ h with }, rfl⟩
  next => exact ⟨{ h with }, rfl⟩

theorem workerInv_claim {window : Nat} (h : WorkerAt cap (.draw window) w) :
    WorkerInv cap (execClaim e w window).2 := by
  obtain ⟨hcore, hpending⟩ := claimNext_core e h.core
  have hnone : (claimNext e w).2.1.pending = none := hpending.trans h.pcOk
  unfold execClaim
  generalize hnext : claimNext e w = r at hcore hnone
  obtain ⟨e', v, idx⟩ := r
  have howed : (WorkerPc.draw window).owed w.pending = v.pending.toList := by
    rw [show w.pending = none from h.pcOk, show v.pending = none from hnone]
    rfl
  rw [howed] at hcore
  dsimp only at hcore ⊢
  split
  next =>
    refine ⟨{ hcore with balance := ?_ }, hnone⟩
    have := hcore.balance
    dsimp only [WorkerPc.asking, WorkerPc.owed] at this ⊢
    omega
  next => exact ⟨{ hcore.mono (Nat.le_add_right _ 1) with }, trivial⟩

theorem workerInv_decline {window idx : Nat} (h : WorkerAt cap (.ask window idx) w)
    {rc : TaskNext ι} (hrc : TaskNext.jobAt (idx, rc) = none) (reason : TaskNext Unit) :
    WorkerInv cap (decline { w with asked := w.asked ++ [(idx, rc)] } reason) := by
  refine ⟨{ h.core.mono (Nat.le_add_right _ 1) with balance := ?_, jobs := ?_ }, trivial⟩
  · have := h.core.balance
    dsimp only [decline, WorkerPc.asking, WorkerPc.owed] at this ⊢
    omega
  · have := h.core.jobs
    dsimp only [decline, Worker.drawn, WorkerPc.owed] at this ⊢
    rw [List.filterMap_append]
    simpa [hrc] using this

theorem workerInv_answer {window idx : Nat} (h : WorkerAt cap (.ask window idx) w) {id : Nat}
    (rc : TaskNext ι) : WorkerInv cap (execAnswer e id w window idx rc).2 := by
  have hnone : w.pending = none := h.pcOk
  cases rc with
  | job j =>
    refine ⟨{ h.core with room := ?_, balance := ?_, jobs := ?_ }, trivial⟩
    · have := h.core.room
      rw [hnone] at this
      exact this
    · have := h.core.balance
      rw [hnone] at this
      exact this
    · have := h.core.jobs
      rw [hnone] at this
      dsimp only [execAnswer, Worker.drawn, WorkerPc.owed] at this ⊢
      rw [List.filterMap_append, ← List.append_assoc]
      simpa [TaskNext.jobAt] using this.append_right [⟨idx, j⟩]
  | exhausted => exact workerInv_decline h rfl _
  | stopCondition => exact workerInv_decline h rfl _
  | cancelled => exact workerInv_decline h rfl _
  | fatal => exact workerInv_decline h rfl _

theorem workerInv_launchFailed {window : Nat} {d : Drawn ι} (h : WorkerAt cap (.launch window d) w)
    (hex : launchFailed w window d = some w') : WorkerInv cap w' := by
  unfold launchFailed at hex
  dsimp only at hex
  split at hex
  next =>
    obtain rfl := Option.some.inj hex
    exact ⟨{ h.core with }, trivial⟩
  next =>
    split at hex
    next =>
      obtain rfl := Option.some.inj hex
      exact ⟨{ h.core with }, trivial⟩
    next =>
      obtain ⟨v, hv, rfl⟩ := Option.map_eq_some_iff.mp hex
      obtain ⟨out, hout, rfl⟩ := Option.map_eq_some_iff.mp hv
      have hcore : WorkerCore cap 0 0 [] _ := WorkerCore.terminal (w := w) h.core hout
      exact ⟨{ hcore with }, trivial⟩

theorem workerInv_launch {window : Nat} {d : Drawn ι} (h : WorkerAt cap (.launch window d) w)
    {r : Launch} (hex : execLaunch w window d r = some w') : WorkerInv cap w' := by
  unfold execLaunch at hex
  split at hex
  next s free hfree =>
    obtain rfl := Option.some.inj hex
    have hcore : WorkerCore cap 0 0 [] _ := WorkerCore.start h.core hfree
    exact ⟨{ hcore with }, trivial⟩
  next err s free hfree =>
    obtain ⟨v, hv, rfl⟩ := Option.map_eq_some_iff.mp hex
    obtain ⟨out, hout, rfl⟩ := Option.map_eq_some_iff.mp hv
    have hcore : WorkerCore cap 0 0 [] _ := WorkerCore.start h.core hfree
    have hs : (probeStart w s free d).slots[s]? = some (some d) := by
      have hmem : s ∈ w.freelist := by simp [hfree]
      obtain ⟨hlt, -⟩ := List.getElem?_eq_some_iff.mp ((h.core.slots.free s).mp hmem)
      exact List.getElem?_set_self hlt
    exact ⟨{ hcore.release hs hout with }, trivial⟩
  next => exact workerInv_launchFailed h hex

theorem workerInv_settle (h : WorkerAt cap .settle w) : WorkerInv cap (execSettle w) := by
  unfold execSettle
  split
  next => exact ⟨{ h.core with }, fun t ht => absurd ht (Nat.not_lt_zero t)⟩
  next => exact ⟨{ h.core with }, trivial⟩

theorem workerInv_wait (h : WorkerAt cap .wait w) {id : Nat} (r : Waited) :
    WorkerInv cap (execWait e id w r).2 := by
  cases r with
  | failed => exact ⟨{ h.core with }, fun t ht => absurd ht (Nat.not_lt_zero t)⟩
  | interrupted => exact ⟨{ h.core with }, trivial⟩
  | ready => exact ⟨{ h.core with }, trivial⟩

theorem workerInv_finish (hpc : w.pc = .dispatch) (h : WorkerAt cap .dispatch w) {s : Nat} {d : Drawn ι}
    (hs : w.slots[s]? = some (some d)) {res : Result} {origin : FailureOrigin}
    (hex : probeFinishObs w s d res origin = some w') : WorkerInv cap w' := by
  obtain ⟨out, hout, rfl⟩ := Option.map_eq_some_iff.mp hex
  have hcore := h.core.release hs hout
  unfold WorkerInv
  dsimp only [probeRelease]
  rw [hpc]
  exact ⟨{ hcore with }, trivial⟩

theorem workerInv_retireSlot {s : Nat} (h : WorkerAt cap (.retireSlot s) w)
    (hex : execRetireSlot w s = some w') : WorkerInv cap w' := by
  have hfree : ∀ t < s, t < w.nslots → w.slots[t]? = some none := h.pcOk
  unfold execRetireSlot at hex
  split at hex
  next hlt =>
    split at hex
    next d hs =>
      obtain ⟨v, hv, rfl⟩ := Option.map_eq_some_iff.mp hex
      obtain ⟨out, hout, rfl⟩ := Option.map_eq_some_iff.mp hv
      refine ⟨{ h.core.release hs hout with }, ?_⟩
      intro t ht htn
      dsimp only [probeRelease] at htn ⊢
      by_cases hts : t = s
      · subst hts
        exact List.getElem?_set_self (by rw [h.core.slots.length]; exact htn)
      · rw [List.getElem?_set_ne (Ne.symm hts)]
        exact hfree t (by omega) htn
    next hs =>
      obtain rfl := Option.some.inj hex
      refine ⟨{ h.core with }, ?_⟩
      intro t ht htn
      by_cases hts : t = s
      · subst hts
        have hget := List.getElem?_eq_getElem (h.core.slots.length ▸ hlt)
        cases hx : w.slots[t]? with
        | none => simp [hx] at hget
        | some x =>
          cases x with
          | none => rfl
          | some d => exact absurd hx (hs d)
      · exact hfree t (by omega) htn
  next hge =>
    obtain rfl := Option.some.inj hex
    exact ⟨{ h.core with }, (h.core.slots.none_busy fun t ht => hfree t (by omega) ht).1⟩

theorem workerInv_retirePending (h : WorkerAt cap .retirePending w) {fatal : Bool}
    (hex : execRetirePending e w fatal = some w') : WorkerInv cap w' := by
  unfold execRetirePending at hex
  split at hex
  next => simp at hex
  next =>
    split at hex
    next d hd =>
      obtain ⟨v, hv, rfl⟩ := Option.map_eq_some_iff.mp hex
      obtain ⟨out, hout, rfl⟩ := Option.map_eq_some_iff.mp hv
      have hhand := h.core
      rw [hd] at hhand
      have hcore : WorkerCore cap 0 0 [] _ := WorkerCore.terminal (w := w) hhand hout
      exact ⟨{ hcore with }, h.pcOk, rfl⟩
    next hnone =>
      obtain rfl := Option.some.inj hex
      exact ⟨{ h.core with }, h.pcOk, hnone⟩

theorem workerInv_retireTail (h : WorkerAt cap .retireTail w) (hidle : w.out.prod = .idle)
    {flag : Bool} (hex : execRetireTail e w flag = some w') : WorkerInv cap w' := by
  unfold execRetireTail at hex
  split at hex
  next => simp at hex
  next =>
    obtain rfl := Option.some.inj hex
    refine ⟨{ h.core with balance := ?_ }, h.pcOk.1, h.pcOk.2, hidle, rfl⟩
    have := h.core.balance
    dsimp only [WorkerPc.asking, WorkerPc.owed] at this ⊢
    split <;> omega

/-- Every operation of a worker keeps its invariant. -/
theorem workerInv_step (h : WorkerInv cap w) {e' : Shared} {id : Nat} {a : WorkerAct ι}
    (hstep : workerStep e id w a = some (e', w')) : WorkerInv cap w' := by
  obtain ⟨hidle, hmove⟩ := workerStep_move hstep
  unfold WorkerInv at h
  cases hmove with
  | loop hpc hex => exact workerInv_loop (hpc ▸ h) hex
  | fill hpc hex => exact workerInv_fill (hpc ▸ h) hidle hex
  | claim hpc hex =>
    rw [← show _ = w' from congrArg Prod.snd hex]
    exact workerInv_claim (hpc ▸ h)
  | answer hpc hex =>
    rw [← show _ = w' from congrArg Prod.snd hex]
    exact workerInv_answer (hpc ▸ h) _
  | launch hpc hex => exact workerInv_launch (hpc ▸ h) hex
  | settle hpc => exact workerInv_settle (hpc ▸ h)
  | wait hpc hex =>
    rw [← show _ = w' from congrArg Prod.snd hex]
    exact workerInv_wait (hpc ▸ h) _
  | finish hpc hs hex => exact workerInv_finish hpc (hpc ▸ h) hs hex
  | resume hpc =>
    rw [hpc] at h
    exact ⟨{ h.core with }, trivial⟩
  | retireSlot hpc hex => exact workerInv_retireSlot (hpc ▸ h) hex
  | retirePending hpc hex => exact workerInv_retirePending (hpc ▸ h) hex
  | retireTail hpc hex => exact workerInv_retireTail (hpc ▸ h) hidle hex

/-- So does every operation on its ring between two of its own. -/
theorem workerInv_ring (h : WorkerInv cap w) {a : RingAct (Event ι)} (ha : a.ofCall = false)
    {out : RingSys (Event ι)} (hstep : ringStep w.out a = some out) :
    WorkerInv cap { w with out := out } := by
  have hpush : a.isPush = false := by
    cases a <;> first | rfl | simp [RingAct.ofCall] at ha
  obtain ⟨hroom, hsent⟩ := h.core.room.other hpush hstep
  refine ⟨{ h.core with room := hroom, jobs := ?_ }, ?_⟩
  · have hjobs := h.core.jobs
    dsimp only [Worker.drawn] at hjobs ⊢
    rw [hsent]
    exact hjobs
  · have hok := h.pcOk
    dsimp only
    cases hpc : w.pc with
    | done =>
      rw [hpc] at hok
      exact ⟨hok.1, hok.2.1, ringStep_idle hok.2.2.1 hpush hstep, hok.2.2.2⟩
    | _ =>
      rw [hpc] at hok
      exact hok

end Steps

end Qanat
