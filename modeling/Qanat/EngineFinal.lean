import Qanat.EngineConserve
import Qanat.EngineSweep
import Qanat.RingFifo

namespace Qanat

variable {ι : Type}

/-- The loop of `qn_engine_poll` over the workers; `total` events have been handed over so far. -/
def pollWorkers (maxEvents : Nat) : Nat → List (Worker ι) → List (Worker ι) × List (Event ι)
  | _, [] => ([], [])
  | total, w :: ws =>
    if total < maxEvents then
      let got := ringPopBatch w.out (UInt32.ofNat (min 128 (maxEvents - total)))
      let rest := pollWorkers maxEvents (total + got.2.length) ws
      ({ w with out := got.1 } :: rest.1, got.2 ++ rest.2)
    else (w :: ws, [])

/-- `qn_engine_poll`, with the events it hands to `on_event`. -/
def enginePoll (c : Engine ι) (maxEvents : Nat) : Engine ι × List (Event ι) :=
  let r := pollWorkers maxEvents 0 c.workers
  ({ c with workers := r.1 }, r.2)

/-- The loop of `qn_engine_finalize` that polls until nothing comes. -/
def engineDrain : Nat → Engine ι → Option (Engine ι)
  | 0, _ => none
  | fuel + 1, c =>
    match enginePoll c 0xFFFFFFFF with
    | (c, []) => some c
    | (c, _ :: _) => engineDrain fuel c

/-- The events that have not been popped. -/
def Engine.queued (c : Engine ι) : Nat :=
  (c.workers.map fun w => w.out.pushed.length - w.out.popped.length).sum

/-- The events handed to `on_event`. -/
def Engine.delivered (c : Engine ι) : List (Event ι) :=
  c.workers.flatMap fun w => w.out.popped

/-- The counters of `qn_engine_snapshot` that decide the outcome. -/
structure Snapshot where
  claimed : Nat
  completed : Nat
  skipped : Nat
  unattempted : Nat
  localTerminalFailures : Nat
  eventsDropped : Nat
  status : EngineStatus

def engineStats (c : Engine ι) : Snapshot :=
  { claimed := c.total WStats.claimed
    completed := c.total WStats.completed
    skipped := c.total WStats.skipped
    unattempted := c.total WStats.unattempted
    localTerminalFailures := c.total WStats.localTerminalFailures
    eventsDropped := (c.workers.map fun w => w.out.ring.dropped).sum
    status := c.shared.status }

/-- `qn_engine_accounted`, with what is missing. -/
def engineAccounted (s : Snapshot) : Bool × Nat :=
  if s.claimed < s.completed ∨ s.claimed - s.completed < s.skipped ∨
      s.claimed - s.completed - s.skipped < s.unattempted then (false, 0)
  else
    let seen := s.completed + s.skipped + s.unattempted
    (s.claimed == seen, if seen < s.claimed then s.claimed - seen else 0)

inductive RunOutcome
  | success | cancelled | incomplete | failed
  deriving DecidableEq

structure Finalization where
  stats : Snapshot
  missing : Nat
  accounted : Bool
  failed : Bool

def engineOutcome (f : Finalization) : RunOutcome :=
  if f.failed ∨ f.stats.status = .fatal then .failed
  else if f.accounted = false ∨ f.stats.eventsDropped ≠ 0 then .failed
  else if f.stats.localTerminalFailures ≠ 0 then .failed
  else if f.stats.status = .cancelled then .cancelled
  else if f.stats.unattempted ≠ 0 then .incomplete
  else .success

/-- `qn_engine_finalize`, called by the owner between two of its polls. -/
def engineFinalize (c : Engine ι) (cancel : Bool) : Option (Finalization × Engine ι) :=
  let c := if cancel then { c with shared := { c.shared with stopping := true } } else c
  if c.workers.all fun w => w.out.cons.isIdle then
    (engineJoin c).bind fun c =>
      (engineDrain (c.queued + 1) c).map fun c =>
        let stats := engineStats c
        let accounted := engineAccounted stats
        (⟨stats, accounted.2, accounted.1, c.shared.fatal⟩, c)
  else none

section Poll

/-- What the poll of a joined engine relies on. -/
def Quiet (w : Worker ι) : Prop :=
  w.out.cons = .idle ∧ ∃ cap, RingOk cap w.out

/-- A poll changes nothing but what has been popped. -/
structure Polled (w w' : Worker ι) : Prop where
  rest : w' = { w with out := w'.out }
  pushed : w'.out.pushed = w.out.pushed
  dropped : w'.out.ring.dropped = w.out.ring.dropped
  popped : w.out.popped <+: w'.out.popped
  quiet : Quiet w'

theorem polled_batch {w : Worker ι} (h : Quiet w) (max : UInt32) :
    Polled w { w with out := (ringPopBatch w.out max).1 } := by
  obtain ⟨hidle, cap, heads, P, S, hring⟩ := h
  obtain ⟨hpushed, hprod, hcons, hdropped, hpopped⟩ := ringPopBatch_frame w.out max
  refine ⟨rfl, hpushed, hdropped, ?_, hcons.trans hidle, cap, ?_⟩
  · dsimp only
    rw [hpopped]
    exact List.prefix_append _ _
  · exact (ringPopBatch_reach hring hidle max).invariant ⟨heads, P, S, hring⟩
      fun _ _ _ hok _ hstep => ringOk_step hok hstep

theorem Polled.refl {w : Worker ι} (h : Quiet w) : Polled w w :=
  ⟨rfl, rfl, rfl, List.prefix_rfl, h⟩

theorem pollWorkers_polled (maxEvents : Nat) (ws : List (Worker ι)) (hquiet : ∀ w ∈ ws, Quiet w) (total : Nat) :
    List.Forall₂ Polled ws (pollWorkers maxEvents total ws).1 := by
  induction ws generalizing total with
  | nil => exact List.Forall₂.nil
  | cons w ws ih =>
    have hw := hquiet w List.mem_cons_self
    have hws := fun u hu => hquiet u (List.mem_cons_of_mem w hu)
    unfold pollWorkers
    split
    next => exact List.Forall₂.cons (polled_batch hw _) (ih hws _)
    next => exact List.Forall₂.cons (Polled.refl hw) (List.forall₂_same.mpr fun u hu => Polled.refl (hws u hu))

theorem Polled.trans {w w' w'' : Worker ι} (h : Polled w w') (h' : Polled w' w'') : Polled w w'' := by
  refine ⟨?_, h'.pushed.trans h.pushed, h'.dropped.trans h.dropped, h.popped.trans h'.popped, h'.quiet⟩
  have hrest := h'.rest
  rw [h.rest] at hrest
  exact hrest

/-- Nothing is popped that was not pushed. -/
theorem Quiet.popped_prefix {w : Worker ι} (h : Quiet w) : w.out.popped <+: w.out.pushed := by
  obtain ⟨-, cap, heads, P, S, hring⟩ := h
  rw [hring.popped_eq]
  exact List.take_prefix _ _

theorem Polled.queued {w w' : Worker ι} {got : List (Event ι)} (h : Polled w w')
    (hgot : w'.out.popped = w.out.popped ++ got) :
    got.length + (w'.out.pushed.length - w'.out.popped.length) =
      w.out.pushed.length - w.out.popped.length := by
  have hle := h.quiet.popped_prefix.length_le
  have hlen := congrArg List.length hgot
  rw [List.length_append] at hlen
  rw [h.pushed] at hle ⊢
  omega

theorem pollWorkers_queued (maxEvents : Nat) (ws : List (Worker ι)) (hquiet : ∀ w ∈ ws, Quiet w) (total : Nat) :
    (pollWorkers maxEvents total ws).2.length +
      ((pollWorkers maxEvents total ws).1.map fun w => w.out.pushed.length - w.out.popped.length).sum =
      (ws.map fun w => w.out.pushed.length - w.out.popped.length).sum := by
  induction ws generalizing total with
  | nil => rfl
  | cons w ws ih =>
    have hw := hquiet w List.mem_cons_self
    unfold pollWorkers
    split
    next =>
      dsimp only
      have hhead := (polled_batch hw _).queued
        (ringPopBatch_frame w.out (UInt32.ofNat (min 128 (maxEvents - total)))).2.2.2.2
      have htail := ih (fun u hu => hquiet u (List.mem_cons_of_mem w hu))
        (total + (ringPopBatch w.out (UInt32.ofNat (min 128 (maxEvents - total)))).2.length)
      dsimp only at hhead
      rw [List.length_append, List.map_cons, List.map_cons, List.sum_cons, List.sum_cons]
      dsimp only
      omega
    next => simp

/-- A poll that brings nothing has found every ring empty. -/
theorem pollWorkers_nil {maxEvents : Nat} (hmax : 0 < maxEvents) (ws : List (Worker ι))
    (hquiet : ∀ w ∈ ws, Quiet w) (hnil : (pollWorkers maxEvents 0 ws).2 = []) :
    ∀ w ∈ ws, w.out.popped = w.out.pushed := by
  induction ws with
  | nil => simp
  | cons w ws ih =>
    have hw := hquiet w List.mem_cons_self
    unfold pollWorkers at hnil
    rw [if_pos hmax] at hnil
    dsimp only at hnil
    obtain ⟨hbatch, hrest⟩ := List.append_eq_nil_iff.mp hnil
    rw [hbatch] at hrest
    have hmany : UInt32.ofNat (min 128 (maxEvents - 0)) ≠ 0 := by
      intro hzero
      have hval := congrArg UInt32.toNat hzero
      rw [UInt32.toNat_ofNat_of_lt' (show min 128 (maxEvents - 0) < 2 ^ 32 by omega)] at hval
      have : min 128 (maxEvents - 0) = 0 := hval
      omega
    obtain ⟨-, cap, heads, P, S, hring⟩ := hw
    have hlen := ringPopBatch_nil hring hmany hbatch
    intro u hu
    rcases List.mem_cons.mp hu with rfl | hu
    · rw [hring.popped_eq, hlen, List.take_length]
    · exact ih (fun v hv => hquiet v (List.mem_cons_of_mem w hv)) hrest u hu

end Poll

section Drain

theorem quiet_of_polled {ws ws' : List (Worker ι)} (h : List.Forall₂ Polled ws ws') : ∀ w ∈ ws', Quiet w := by
  induction h with
  | nil => simp
  | cons hw _ ih =>
    intro u hu
    rcases List.mem_cons.mp hu with rfl | hu
    · exact hw.quiet
    · exact ih u hu

theorem full_of_polled {ws ws' : List (Worker ι)} (h : List.Forall₂ Polled ws ws')
    (hfull : ∀ w ∈ ws, w.out.popped = w.out.pushed) : ∀ w ∈ ws', w.out.popped = w.out.pushed := by
  induction h with
  | nil => simp
  | cons hw _ ih =>
    intro u hu
    rcases List.mem_cons.mp hu with rfl | hu
    · have hlow := hw.popped.length_le
      rw [hfull _ List.mem_cons_self, ← hw.pushed] at hlow
      exact hw.quiet.popped_prefix.eq_of_length_le hlow
    · exact ih (fun v hv => hfull v (List.mem_cons_of_mem _ hv)) u hu

theorem polled_trans {ws ws' ws'' : List (Worker ι)} (h : List.Forall₂ Polled ws ws')
    (h' : List.Forall₂ Polled ws' ws'') : List.Forall₂ Polled ws ws'' := by
  induction h generalizing ws'' with
  | nil => exact h'
  | cons hw _ ih =>
    cases h' with
    | cons hw' htail => exact List.Forall₂.cons (hw.trans hw') (ih htail)

/-- The loop ends once it has run as often as there are events in the rings. -/
theorem engineDrain_total (fuel : Nat) (c : Engine ι) (hquiet : ∀ w ∈ c.workers, Quiet w)
    (hfuel : c.queued < fuel) : ∃ c', engineDrain fuel c = some c' := by
  induction fuel generalizing c with
  | zero => omega
  | succ fuel ih =>
    unfold engineDrain
    cases hpoll : (enginePoll c 0xFFFFFFFF).2 with
    | nil =>
      refine ⟨(enginePoll c 0xFFFFFFFF).1, ?_⟩
      rw [show enginePoll c 0xFFFFFFFF = ((enginePoll c 0xFFFFFFFF).1, []) from Prod.ext rfl hpoll]
    | cons ev evs =>
      rw [show enginePoll c 0xFFFFFFFF = ((enginePoll c 0xFFFFFFFF).1, ev :: evs) from Prod.ext rfl hpoll]
      refine ih _ (quiet_of_polled (pollWorkers_polled _ _ hquiet 0)) ?_
      have hqueued := pollWorkers_queued 0xFFFFFFFF c.workers hquiet 0
      have hgot : (pollWorkers 0xFFFFFFFF 0 c.workers).2 = ev :: evs := hpoll
      rw [hgot, List.length_cons] at hqueued
      unfold Engine.queued at hfuel ⊢
      unfold enginePoll
      dsimp only
      omega

theorem engineDrain_spec (fuel : Nat) {c c' : Engine ι} (hquiet : ∀ w ∈ c.workers, Quiet w)
    (h : engineDrain fuel c = some c') :
    c'.shared = c.shared ∧ List.Forall₂ Polled c.workers c'.workers ∧
    ∀ w ∈ c'.workers, w.out.popped = w.out.pushed := by
  induction fuel generalizing c with
  | zero => simp [engineDrain] at h
  | succ fuel ih =>
    have hpolled := pollWorkers_polled 0xFFFFFFFF c.workers hquiet 0
    have hquiet' := quiet_of_polled hpolled
    unfold engineDrain at h
    split at h
    next c₁ hpoll =>
      obtain rfl := Option.some.inj h
      obtain rfl : (enginePoll c 0xFFFFFFFF).1 = c₁ := congrArg Prod.fst hpoll
      have hnil : (pollWorkers 0xFFFFFFFF 0 c.workers).2 = [] := congrArg Prod.snd hpoll
      exact ⟨rfl, hpolled, full_of_polled hpolled (pollWorkers_nil (by decide) _ hquiet hnil)⟩
    next c₁ ev evs hpoll =>
      obtain rfl : (enginePoll c 0xFFFFFFFF).1 = c₁ := congrArg Prod.fst hpoll
      obtain ⟨hshared, htail, hempty⟩ := ih hquiet' h
      exact ⟨hshared, polled_trans hpolled htail, hempty⟩

end Drain

end Qanat
