import Qanat.EngineCursor
import Qanat.EngineWorker
import Qanat.General.ListSum

namespace Qanat

open Transition

variable {ι : Type}

/-- What one action of the engine can be. -/
inductive EngineMove (c : Engine ι) : EngineAct ι → Engine ι → Prop
  | worker {i : Nat} {a : WorkerAct ι} {w w' : Worker ι} {e' : Shared} (hw : c.workers[i]? = some w)
      (hidle : w.out.prod = .idle) (hmove : WorkerMove c.shared i w a e' w')
      (hstep : workerStep c.shared i w a = some (e', w')) :
      EngineMove c (.worker i a) ⟨e', c.workers.set i w'⟩
  | ring {i : Nat} {a : RingAct (Event ι)} {w : Worker ι} {out : RingSys (Event ι)}
      (hw : c.workers[i]? = some w) (hcall : a.ofCall = false) (hstep : ringStep w.out a = some out) :
      EngineMove c (.ring i a) { c with workers := c.workers.set i { w with out := out } }
  | raise (f : Flag) : EngineMove c (.raise f) { c with shared := c.shared.raise f }
  | join {c' : Engine ι} (hstep : engineJoin c = some c') : EngineMove c .join c'

theorem engineStep_move {c c' : Engine ι} {a : EngineAct ι} (h : engineStep c a = some c') :
    EngineMove c a c' := by
  cases a with
  | worker i a =>
    simp only [engineStep] at h
    split at h
    next => simp at h
    next w hw =>
      obtain ⟨⟨e', w'⟩, hstep, rfl⟩ := Option.map_eq_some_iff.mp h
      obtain ⟨hidle, hmove⟩ := workerStep_move hstep
      exact .worker hw hidle hmove hstep
  | ring i a =>
    simp only [engineStep] at h
    split at h
    next => simp at h
    next w hw =>
      split at h
      next => simp at h
      next hcall =>
        obtain ⟨out, hstep, rfl⟩ := Option.map_eq_some_iff.mp h
        exact .ring hw (by simpa using hcall) hstep
  | raise f =>
    obtain rfl := Option.some.inj h
    exact .raise f
  | join => exact .join h

theorem joined_iff {c : Engine ι} : c.joined = true ↔ ∀ w ∈ c.workers, w.pc = .done := by
  unfold Engine.joined
  rw [List.all_eq_true]
  refine forall₂_congr fun w _ => ?_
  cases w.pc <;> simp [WorkerPc.isDone]

theorem engineJoin_shape {c c' : Engine ι} (h : engineJoin c = some c') :
    c'.workers = c.workers ∧ c'.shared.cursor = c.shared.cursor ∧ c'.shared.domain = c.shared.domain := by
  unfold engineJoin at h
  split at h
  next =>
    split at h
    next =>
      obtain rfl := Option.some.inj h
      exact ⟨rfl, rfl, rfl⟩
    next => simp at h
  next =>
    obtain rfl := Option.some.inj h
    exact ⟨rfl, rfl, rfl⟩

theorem raise_shape (e : Shared) (f : Flag) : (e.raise f).cursor = e.cursor ∧ (e.raise f).domain = e.domain := by
  cases f <;> exact ⟨rfl, rfl⟩

/-- The shares of the workers make up the cursor, and no index is held twice. -/
structure CursorInv (c : Engine ι) : Prop where
  chunk : ∀ w ∈ c.workers, w.claimCur ≤ w.claimEnd ∧ w.claimEnd ≤ c.shared.cursor
  share : (c.workers.map fun w => w.view.share c.shared.domain).sum = clip c.shared.domain c.shared.cursor
  once : ∀ x, (c.workers.map fun w => w.view.held x).sum ≤ if x < c.shared.cursor then 1 else 0

theorem CursorInv.congr {c c' : Engine ι} (h : CursorInv c) (hworkers : c'.workers = c.workers)
    (hcursor : c'.shared.cursor = c.shared.cursor) (hdomain : c'.shared.domain = c.shared.domain) :
    CursorInv c' := by
  obtain ⟨hchunk, hshare, honce⟩ := h
  refine ⟨?_, ?_, ?_⟩
  · rw [hworkers, hcursor]
    exact hchunk
  · rw [hworkers, hcursor, hdomain]
    exact hshare
  · rw [hworkers, hcursor]
    exact honce

theorem cursorInv_worker {c : Engine ι} (h : CursorInv c) {i : Nat} {a : WorkerAct ι} {w w' : Worker ι}
    {e' : Shared} (hw : c.workers[i]? = some w) (hmove : WorkerMove c.shared i w a e' w') :
    CursorInv ⟨e', c.workers.set i w'⟩ := by
  obtain ⟨hcur, hlast⟩ := h.chunk w (List.mem_of_getElem? hw)
  have hdomain := workerMove_domain hmove
  have hview := workerMove_view hmove hcur hlast
  have hgrows := hview.grows
  refine ⟨?_, ?_, ?_⟩
  · intro u hu
    rcases List.mem_or_eq_of_mem_set hu with hu | rfl
    · obtain ⟨hu₁, hu₂⟩ := h.chunk u hu
      exact ⟨hu₁, le_trans hu₂ hgrows⟩
    · exact ⟨hview.cur_le, hview.last_le⟩
  · have hsum := ListSum.sum_map_set (fun u => u.view.share c.shared.domain) w' hw
    have hshare := h.share
    have hstep := hview.share
    dsimp only at hsum ⊢
    rw [hdomain]
    omega
  · intro x
    have hsum := ListSum.sum_map_set (fun u => u.view.held x) w' hw
    have honce := h.once x
    have hstep := hview.once x
    dsimp only at hsum ⊢
    split_ifs at honce hstep ⊢ <;> omega

theorem cursorInv_ring {c : Engine ι} (h : CursorInv c) {i : Nat} {w : Worker ι}
    (out : RingSys (Event ι)) (hw : c.workers[i]? = some w) :
    CursorInv { c with workers := c.workers.set i { w with out := out } } := by
  have hmap : ∀ (f : ClaimView ι → Nat),
      (c.workers.set i { w with out := out }).map (fun u => f u.view) = c.workers.map fun u => f u.view :=
    fun f => ListSum.map_set_of_eq (fun u => f u.view) (b := { w with out := out }) hw rfl
  refine ⟨?_, ?_, ?_⟩
  · intro u hu
    rcases List.mem_or_eq_of_mem_set hu with hu | rfl
    · exact h.chunk u hu
    · exact h.chunk w (List.mem_of_getElem? hw)
  · dsimp only
    rw [hmap]
    exact h.share
  · intro x
    dsimp only
    rw [hmap]
    exact h.once x

theorem cursorInv_step {c c' : Engine ι} {a : EngineAct ι} (h : CursorInv c) (hstep : engineStep c a = some c') :
    CursorInv c' := by
  cases engineStep_move hstep with
  | worker hw _ hmove => exact cursorInv_worker h hw hmove
  | ring hw _ _ => exact cursorInv_ring h _ hw
  | raise f => exact h.congr rfl (raise_shape _ f).1 (raise_shape _ f).2
  | join hjoin =>
    obtain ⟨hworkers, hcursor, hdomain⟩ := engineJoin_shape hjoin
    exact h.congr hworkers hcursor hdomain

theorem workersInv_step {cap : Nat} {c c' : Engine ι} {a : EngineAct ι}
    (h : ∀ w ∈ c.workers, WorkerInv cap w) (hstep : engineStep c a = some c') :
    ∀ w ∈ c'.workers, WorkerInv cap w := by
  cases engineStep_move hstep with
  | worker hw _ _ hw' =>
    intro u hu
    rcases List.mem_or_eq_of_mem_set hu with hu | rfl
    · exact h u hu
    · exact workerInv_step (h _ (List.mem_of_getElem? hw)) hw'
  | ring hw hcall hring =>
    intro u hu
    rcases List.mem_or_eq_of_mem_set hu with hu | rfl
    · exact h u hu
    · exact workerInv_ring (h _ (List.mem_of_getElem? hw)) hcall hring
  | raise f => exact h
  | join hjoin =>
    rw [(engineJoin_shape hjoin).1]
    exact h

variable {ι : Type}

theorem ringGrow_spec (fuel : Nat) {cap : UInt32} (need : UInt32) {k : Nat} (hcap : cap.toNat = 2 ^ k)
    (hk : k ≤ 31) (hfuel : 31 - k < fuel) :
    ∃ j, k ≤ j ∧ j ≤ 31 ∧ (ringGrow fuel cap need).toNat = 2 ^ j ∧
      (need ≤ ringGrow fuel cap need ∨ j = 31) := by
  induction fuel generalizing cap k with
  | zero => omega
  | succ fuel ih =>
    unfold ringGrow
    split
    next hmore =>
      have hhalf : cap.toNat ≤ 2 ^ 31 - 1 := UInt32.le_iff_toNat_le.mp hmore.2
      have hk' : k ≤ 30 := by
        by_contra hlarge
        have hpow : 2 ^ 31 ≤ 2 ^ k := Nat.pow_le_pow_right (by decide) (by omega)
        omega
      have hdouble : (cap <<< 1).toNat = 2 ^ (k + 1) := by
        rw [UInt32.toNat_shiftLeft, hcap, Nat.shiftLeft_eq]
        change 2 ^ k * 2 ^ 1 % 2 ^ 32 = 2 ^ (k + 1)
        have hpow : 2 ^ (k + 1) ≤ 2 ^ 31 := Nat.pow_le_pow_right (by decide) (by omega)
        rw [← Nat.pow_add]
        exact Nat.mod_eq_of_lt (by omega)
      obtain ⟨j, hj, hj', hval, hend⟩ := ih hdouble (by omega) (by omega)
      exact ⟨j, by omega, hj', hval, hend⟩
    next hend =>
      refine ⟨k, le_refl k, hk, hcap, ?_⟩
      by_cases hneed : need ≤ cap
      · exact Or.inl hneed
      · refine Or.inr ?_
        have hlarge : ¬cap ≤ 0xFFFFFFFF / 2 := fun hle => hend ⟨UInt32.not_le.mp hneed, hle⟩
        have hlarge : 2 ^ 31 - 1 < cap.toNat := UInt32.lt_iff_toNat_lt.mp (UInt32.not_le.mp hlarge)
        by_contra hne
        have hpow : 2 ^ k ≤ 2 ^ 30 := Nat.pow_le_pow_right (by decide) (by omega)
        omega

/-- The loop of `ring_capacity` ends by itself, at a power of two that `pow2_ceil` accepts. -/
theorem ringCapacity_spec (slots : UInt32) :
    ∃ j, 10 ≤ j ∧ j ≤ 31 ∧ (ringCapacity slots).toNat = 2 ^ j := by
  obtain ⟨j, hlow, hup, hval, -⟩ := ringGrow_spec 32
    (if slots ≤ (0xFFFFFFFF - 2) / 2 then slots * 2 + 2 else 0xFFFFFFFF)
    (show ringMin.toNat = 2 ^ 10 from rfl) (by decide) (by decide)
  exact ⟨j, hlow, hup, hval⟩

theorem engineStart_total (perWorker : UInt32) (buf : UInt32 → Event ι) (nslots : List Nat) (domain : Nat) :
    ∃ c, engineStart perWorker buf nslots domain = some c := by
  obtain ⟨j, hlow, hup, hval⟩ := ringCapacity_spec perWorker
  have hpos : 0 < 2 ^ j := Nat.pow_pos (by decide)
  have hle : 2 ^ j ≤ 2 ^ 31 := Nat.pow_le_pow_right (by decide) hup
  have hrange : ¬(ringCapacity perWorker = 0 ∨ (1 : UInt32) <<< 31 < ringCapacity perWorker) := by
    rintro (hzero | hlarge)
    · rw [hzero] at hval
      have : 0 = 2 ^ j := hval
      omega
    · have : 2 ^ 31 < (ringCapacity perWorker).toNat := UInt32.lt_iff_toNat_lt.mp hlarge
      omega
  unfold engineStart ringInit pow2Ceil
  rw [if_neg hrange]
  split <;> exact ⟨_, rfl⟩

/-- `qn_engine_init` makes at least one worker, and sizes the ring by the largest of them. -/
theorem engineInit_slots {cfg : EngineConfig} {topologyWorkers nofile perWorker : Nat} {nslots : List Nat}
    (h : engineInit cfg topologyWorkers nofile = some (perWorker, nslots)) :
    nslots ≠ [] ∧ ∀ n ∈ nslots, n ≤ perWorker := by
  obtain ⟨concurrency, -, heq⟩ := Option.map_eq_some_iff.mp h
  obtain ⟨rfl, rfl⟩ := Prod.mk.inj heq
  have hrequested : 0 < requestedWorkers cfg topologyWorkers := by
    unfold requestedWorkers
    dsimp only
    split_ifs <;> omega
  generalize hworkers : min (requestedWorkers cfg topologyWorkers) (max (concurrency / 16) 1) = nworkers
  have hpos : 0 < nworkers := by omega
  refine ⟨?_, ?_⟩
  · rw [Ne, List.map_eq_nil_iff, List.range_eq_nil]
    omega
  · intro n hn
    obtain ⟨i, -, rfl⟩ := List.mem_map.mp hn
    have hdiv := Nat.div_add_mod concurrency nworkers
    rw [Nat.le_div_iff_mul_le hpos, Nat.add_mul, Nat.mul_comm]
    split
    next hi =>
      rw [Nat.one_mul]
      omega
    next => omega

theorem workerInv_start {cap : Nat} {r : Ring (Event ι)} (h : RingRoom cap 0 (ringStart r)) (nslots : Nat) :
    WorkerInv cap (workerStart r nslots) :=
  ⟨{ slots := slotsOk_start nslots
     room := h
     balance := rfl
     jobs := by simp [workerStart, Worker.drawn, RingSys.sent, ringStart, PushPc.item, WorkerPc.owed, busyJobs] },
    trivial⟩

theorem cursorInv_start {perWorker : UInt32} {buf : UInt32 → Event ι} {nslots : List Nat} {domain : Nat}
    {c : Engine ι} (h : engineStart perWorker buf nslots domain = some c) : CursorInv c := by
  obtain ⟨r, -, rfl⟩ := Option.map_eq_some_iff.mp h
  refine ⟨?_, ?_, ?_⟩
  · intro w hw
    obtain ⟨n, -, rfl⟩ := List.mem_map.mp hw
    exact ⟨le_refl _, le_refl _⟩
  · simp [workerStart, Worker.view, ClaimView.share, clip, Function.comp_def]
  · simp [workerStart, Worker.view, ClaimView.held, WorkerPc.asks, Function.comp_def]

theorem engineDomain_step {c c' : Engine ι} {a : EngineAct ι} (hstep : engineStep c a = some c') :
    c'.shared.domain = c.shared.domain := by
  cases engineStep_move hstep with
  | worker _ _ hmove => exact workerMove_domain hmove
  | ring => rfl
  | raise f => exact (raise_shape _ f).2
  | join hjoin => exact (engineJoin_shape hjoin).2.2

theorem engineLength_step {c c' : Engine ι} {a : EngineAct ι} (hstep : engineStep c a = some c') :
    c'.workers.length = c.workers.length := by
  cases engineStep_move hstep with
  | worker => exact List.length_set
  | ring => exact List.length_set
  | raise => rfl
  | join hjoin => rw [(engineJoin_shape hjoin).1]

section Reachable

variable {perWorker : UInt32} {buf : UInt32 → Event ι} {nslots : List Nat} {domain : Nat}
  {guard : Engine ι → EngineAct ι → Prop} {c₀ c : Engine ι}
  (hstart : engineStart perWorker buf nslots domain = some c₀)
  (hreach : Reach engineStep guard c₀ c)
include hstart hreach

theorem reach_workersInv : ∃ cap, ∀ w ∈ c.workers, WorkerInv cap w := by
  obtain ⟨r, hr, rfl⟩ := Option.map_eq_some_iff.mp hstart
  obtain ⟨cap, hroom⟩ := ringRoom_start hr
  refine ⟨cap, hreach.invariant ?_ fun _ _ _ h _ hstep => workersInv_step h hstep⟩
  intro w hw
  obtain ⟨n, -, rfl⟩ := List.mem_map.mp hw
  exact workerInv_start hroom n

theorem reach_cursorInv : CursorInv c :=
  hreach.invariant (cursorInv_start hstart) fun _ _ _ h _ hstep => cursorInv_step h hstep

theorem reach_domain : c.shared.domain = domain := by
  refine hreach.invariant ?_ fun _ _ _ h _ hstep => (engineDomain_step hstep).trans h
  obtain ⟨r, -, rfl⟩ := Option.map_eq_some_iff.mp hstart
  rfl

theorem reach_length : c.workers.length = nslots.length := by
  refine hreach.invariant ?_ fun _ _ _ h _ hstep => (engineLength_step hstep).trans h
  obtain ⟨r, -, rfl⟩ := Option.map_eq_some_iff.mp hstart
  exact List.length_map _

end Reachable

end Qanat
