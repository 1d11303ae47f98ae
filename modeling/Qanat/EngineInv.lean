import Qanat.EngineRun
import Qanat.General.ListSum

namespace Qanat

variable {ι : Type}

/-- The jobs in flight. -/
def busyJobs (slots : List (Option (Drawn ι))) : List (Drawn ι) :=
  slots.filterMap id

/-- The free list and the busy slots partition the slots, and `inflight` counts the busy ones. -/
structure SlotsOk (nslots : Nat) (slots : List (Option (Drawn ι))) (freelist : List Nat)
    (inflight : Nat) : Prop where
  length : slots.length = nslots
  nodup : freelist.Nodup
  free : ∀ s, s ∈ freelist ↔ slots[s]? = some none
  count : freelist.length + inflight = nslots
  busy : (busyJobs slots).length = inflight

theorem slotsOk_start (nslots : Nat) :
    SlotsOk nslots (List.replicate nslots (none : Option (Drawn ι))) (List.range nslots) 0 where
  length := List.length_replicate
  nodup := List.nodup_range
  free := by
    intro s
    rw [List.mem_range, List.getElem?_replicate]
    split
    next h => simp [h]
    next h => simp [h]
  count := by rw [List.length_range, Nat.add_zero]
  busy := by simp [busyJobs]

section Moves

variable {nslots inflight s : Nat} {slots : List (Option (Drawn ι))} {d : Drawn ι}

theorem busyJobs_start (h : slots[s]? = some none) :
    (busyJobs (slots.set s (some d))).Perm (busyJobs slots ++ [d]) := by
  simpa [busyJobs] using ListSum.filterMap_set_perm id (some d) h

theorem busyJobs_release (h : slots[s]? = some (some d)) :
    (busyJobs (slots.set s none) ++ [d]).Perm (busyJobs slots) := by
  simpa [busyJobs] using ListSum.filterMap_set_perm id (none : Option (Drawn ι)) h

theorem SlotsOk.start {free : List Nat} (h : SlotsOk nslots slots (s :: free) inflight) :
    SlotsOk nslots (slots.set s (some d)) free (inflight + 1) := by
  have hs : slots[s]? = some none := (h.free s).mp List.mem_cons_self
  obtain ⟨hlt, -⟩ := List.getElem?_eq_some_iff.mp hs
  have hnodup := List.nodup_cons.mp h.nodup
  have hcount := h.count
  refine ⟨?_, hnodup.2, ?_, ?_, ?_⟩
  · rw [List.length_set]
    exact h.length
  · intro t
    by_cases hts : t = s
    · subst hts
      rw [List.getElem?_set_self hlt]
      simp [hnodup.1]
    · rw [List.getElem?_set_ne (Ne.symm hts), ← h.free t]
      simp [hts]
  · rw [List.length_cons] at hcount
    omega
  · rw [(busyJobs_start hs).length_eq, List.length_append, h.busy, List.length_singleton]

theorem SlotsOk.release {freelist : List Nat} (h : SlotsOk nslots slots freelist inflight)
    (hs : slots[s]? = some (some d)) :
    SlotsOk nslots (slots.set s none) (s :: freelist) (inflight - 1) ∧ 0 < inflight := by
  obtain ⟨hlt, -⟩ := List.getElem?_eq_some_iff.mp hs
  have hout : s ∉ freelist := by
    intro hmem
    rw [h.free, hs] at hmem
    simp at hmem
  have hbusy := (busyJobs_release hs).length_eq
  rw [List.length_append, List.length_singleton, h.busy] at hbusy
  have hcount := h.count
  refine ⟨⟨?_, List.nodup_cons.mpr ⟨hout, h.nodup⟩, ?_, ?_, by omega⟩, by omega⟩
  · rw [List.length_set]
    exact h.length
  · intro t
    by_cases hts : t = s
    · subst hts
      rw [List.getElem?_set_self hlt]
      simp
    · rw [List.getElem?_set_ne (Ne.symm hts), ← h.free t]
      simp [hts]
  · rw [List.length_cons]
    omega

/-- Once every slot is free nothing is in flight. -/
theorem SlotsOk.none_busy {freelist : List Nat} (h : SlotsOk nslots slots freelist inflight)
    (hfree : ∀ t < nslots, slots[t]? = some none) : inflight = 0 ∧ busyJobs slots = [] := by
  have hnil : busyJobs slots = [] := by
    unfold busyJobs
    rw [List.filterMap_eq_nil_iff]
    intro x hx
    obtain ⟨t, ht⟩ := List.mem_iff_getElem?.mp hx
    obtain ⟨hlt, -⟩ := List.getElem?_eq_some_iff.mp ht
    have := hfree t (h.length ▸ hlt)
    rw [this] at ht
    exact (Option.some.inj ht).symm
  refine ⟨?_, hnil⟩
  rw [← h.busy, hnil]
  rfl

end Moves

variable {ι : Type}

def TaskNext.jobAt (x : Nat × TaskNext ι) : Option (Drawn ι) :=
  match x.2 with
  | .job j => some ⟨x.1, j⟩
  | _ => none

/-- The jobs that `next` has returned to a worker. -/
def Worker.drawn (w : Worker ι) : List (Drawn ι) :=
  w.asked.filterMap TaskNext.jobAt

/-- The job a worker holds outside its slots: the one being launched, or the pending one. -/
def WorkerPc.owed (pending : Option (Drawn ι)) : WorkerPc ι → List (Drawn ι)
  | .launch _ d => [d]
  | _ => pending.toList

/-- A call of `next` is under way. -/
def WorkerPc.asking : WorkerPc ι → Nat
  | .ask _ _ => 1
  | _ => 0

/-- A place in the ring is reserved for a job not yet drawn. -/
def WorkerPc.reserved : WorkerPc ι → Nat
  | .draw _ | .ask _ _ => 1
  | _ => 0

/-- What holds of a worker that has jobs `hand` outside its slots, `n` places reserved beyond its
slots and `k` claimed indices not yet settled beyond its slots. -/
structure WorkerCore (cap n k : Nat) (hand : List (Drawn ι)) (w : Worker ι) : Prop where
  slots : SlotsOk w.nslots w.slots w.freelist w.inflight
  room : RingRoom cap (w.inflight + n) w.out
  balance : w.stats.claimed =
    w.stats.completed + w.stats.skipped + w.stats.unattempted + w.inflight + k
  jobs : (w.out.sent.map Event.job ++ (busyJobs w.slots ++ hand)).Perm w.drawn

section Core

variable {cap n k : Nat} {hand : List (Drawn ι)} {w : Worker ι} {d : Drawn ι}

theorem WorkerCore.mono (h : WorkerCore cap n k hand w) {m : Nat} (hle : m ≤ n) :
    WorkerCore cap m k hand w :=
  { h with room := h.room.mono (by omega) }

/-- A terminal event settles the job in hand. -/
theorem WorkerCore.terminal (h : WorkerCore cap (n + 1) (k + 1) (hand ++ [d]) w)
    {out : RingSys (Event ι)} {res : Result} {origin : FailureOrigin}
    (hout : ringStep w.out (.push ⟨d, res, origin⟩) = some out) :
    WorkerCore cap n k hand { w with stats := w.stats.finish origin, out := out } := by
  obtain ⟨hroom, hsent⟩ := RingRoom.push (n := w.inflight + n) h.room hout
  refine { h with room := hroom, balance := ?_, jobs := ?_ }
  · have := h.balance
    dsimp only [WStats.finish]
    omega
  · have hjobs := h.jobs
    dsimp only [Worker.drawn] at hjobs ⊢
    rw [hsent, List.map_append, List.map_singleton, List.append_assoc]
    refine List.Perm.trans (List.Perm.append_left _ ?_) hjobs
    have hmove : ([d] ++ (busyJobs w.slots ++ hand)).Perm ((busyJobs w.slots ++ hand) ++ [d]) :=
      List.perm_append_comm
    rw [List.append_assoc] at hmove
    exact hmove

/-- A launch moves the job in hand to a slot. -/
theorem WorkerCore.start (h : WorkerCore cap (n + 1) (k + 1) (hand ++ [d]) w) {s : Nat}
    {free : List Nat} (hfree : w.freelist = s :: free) :
    WorkerCore cap n k hand (probeStart w s free d) := by
  have hslots := h.slots
  rw [hfree] at hslots
  have hs : w.slots[s]? = some none := (hslots.free s).mp List.mem_cons_self
  refine { slots := hslots.start, room := ?_, balance := ?_, jobs := ?_ }
  · have := h.room
    dsimp only [probeStart]
    rw [show w.inflight + 1 + n = w.inflight + (n + 1) by omega]
    exact this
  · have := h.balance
    dsimp only [probeStart]
    omega
  · have hjobs := h.jobs
    dsimp only [Worker.drawn, probeStart] at hjobs ⊢
    refine List.Perm.trans (List.Perm.append_left _ ?_) hjobs
    refine ((busyJobs_start hs).append_right hand).trans ?_
    rw [List.append_assoc]
    exact List.Perm.append_left _ List.perm_append_comm

/-- A finished probe settles the job of its slot. -/
theorem WorkerCore.release (h : WorkerCore cap n k hand w) {s : Nat} (hs : w.slots[s]? = some (some d))
    {out : RingSys (Event ι)} {res : Result} {origin : FailureOrigin}
    (hout : ringStep w.out (.push ⟨d, res, origin⟩) = some out) :
    WorkerCore cap n k hand (probeRelease { w with stats := w.stats.finish origin, out := out } s) := by
  obtain ⟨hslots, hpos⟩ := h.slots.release hs
  have hroom := h.room
  rw [show w.inflight + n = w.inflight - 1 + n + 1 by omega] at hroom
  obtain ⟨hroom', hsent⟩ := hroom.push hout
  refine { slots := hslots, room := hroom', balance := ?_, jobs := ?_ }
  · have := h.balance
    dsimp only [probeRelease, WStats.finish]
    omega
  · have hjobs := h.jobs
    dsimp only [Worker.drawn, probeRelease] at hjobs ⊢
    rw [hsent, List.map_append, List.map_singleton, List.append_assoc]
    refine List.Perm.trans (List.Perm.append_left _ ?_) hjobs
    have hmove : (([d] ++ busyJobs (w.slots.set s none)) ++ hand).Perm (busyJobs w.slots ++ hand) :=
      (List.perm_append_comm.trans (busyJobs_release hs)).append_right hand
    rw [List.append_assoc] at hmove
    exact hmove

end Core

end Qanat
