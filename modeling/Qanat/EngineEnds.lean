import Qanat.EngineStart

namespace Qanat

open Transition

variable {ι : Type}

def WorkerPc.retiring : WorkerPc ι → Bool
  | .retireSlot _ | .retirePending | .retireTail | .done => true
  | _ => false

/-- Neither drawing nor asking. -/
def WorkerPc.plain : WorkerPc ι → Bool
  | .draw _ | .ask _ _ => false
  | _ => true

/-- What an operation of a worker does to the flags, and how it comes to an end. -/
structure MoveEnds (e : Shared) (w : Worker ι) (a : WorkerAct ι) (e' : Shared) (w' : Worker ι) : Prop where
  stopping : e.stopping = true → e'.stopping = true
  status : e'.status = e.status
  started : e'.started = e.started
  drained : w.drained = true → w'.drained = true
  retiring : w'.pc.retiring = true → w.pc.retiring = true ∨ e'.stopping = true ∨ w'.drained = true
  asks : ∀ idx, w'.pc.asks = some idx → e.domain = 0 ∨ idx < e.domain
  drains : w'.drained = true → w.drained = true ∨ e.domain ≤ w'.claimCur ∨
    ∃ window idx rc, w.pc = .ask window idx ∧ a = .answer rc ∧ ∀ j, rc ≠ .job j
  asked : w'.asked = w.asked ∨
    ∃ window idx rc, w.pc = .ask window idx ∧ a = .answer rc ∧ w'.asked = w.asked ++ [(idx, rc)]
  draws : ∀ window, w'.pc = .draw window → w'.drained = false
  cursor : e'.cursor = e.cursor ∨ ((∃ window, w.pc = .draw window) ∧ e'.cursor = e.cursor + claimChunk ∧
    (e.domain = 0 ∨ e.cursor < e.domain ∨ w'.drained = true))

@[simp] theorem engineFatal_stopping (e : Shared) (id : Nat) : (engineFatal e id).stopping = true := by
  unfold engineFatal
  split <;> rfl

@[simp] theorem engineFatal_status (e : Shared) (id : Nat) : (engineFatal e id).status = e.status := by
  unfold engineFatal
  split <;> rfl

@[simp] theorem engineFatal_started (e : Shared) (id : Nat) : (engineFatal e id).started = e.started := by
  unfold engineFatal
  split <;> rfl

section Moves

variable {e e' : Shared} {k : Nat} {w w' : Worker ι} {a : WorkerAct ι}

/-- An operation that draws nothing and stays where it is, or goes on. -/
theorem moveEnds_plain (hdrained : w'.drained = w.drained) (hasked : w'.asked = w.asked)
    (hplain : w'.pc.plain = true)
    (hretiring : w'.pc.retiring = true → w.pc.retiring = true ∨ w'.drained = true) :
    MoveEnds e w a e w' where
  stopping := id
  status := rfl
  started := rfl
  drained := fun h => hdrained.trans h
  retiring := fun h => (hretiring h).imp_right Or.inr
  asks := fun idx h => by
    cases hpc : w'.pc <;> simp [hpc, WorkerPc.asks, WorkerPc.plain] at h hplain
  drains := fun h => Or.inl (hdrained.symm.trans h)
  asked := Or.inl hasked
  draws := fun window h => by
    rw [h] at hplain
    simp [WorkerPc.plain] at hplain
  cursor := Or.inl rfl

theorem moveEnds_loop {stop : Bool} {window : Nat} (hex : execLoop e w stop window = some w') :
    MoveEnds e w a e w' := by
  unfold execLoop at hex
  split at hex
  next =>
    split at hex
    next hstop =>
      obtain rfl := Option.some.inj hex
      exact
        { stopping := id
          status := rfl
          started := rfl
          drained := id
          retiring := fun _ => Or.inr (Or.inl hstop)
          asks := by simp [WorkerPc.asks]
          drains := Or.inl
          asked := Or.inl rfl
          draws := by simp
          cursor := Or.inl rfl }
    next => simp at hex
  next =>
    obtain rfl := Option.some.inj hex
    exact moveEnds_plain rfl rfl rfl (by simp [WorkerPc.retiring])

theorem moveEnds_fill {window j : Nat} {tokens : Bool} (hex : execFill w window j tokens = some w') :
    MoveEnds e w a e w' := by
  unfold execFill at hex
  split at hex
  next =>
    obtain ⟨out, -, rfl⟩ := Option.map_eq_some_iff.mp hex
    dsimp only
    split
    next => exact moveEnds_plain rfl rfl rfl (by simp [WorkerPc.retiring])
    next =>
      split
      next => split <;> exact moveEnds_plain rfl rfl rfl (by simp [WorkerPc.retiring])
      next =>
        split
        next => exact moveEnds_plain rfl rfl rfl (by simp [WorkerPc.retiring])
        next hdrained =>
          split
          next =>
            exact
              { stopping := id
                status := rfl
                started := rfl
                drained := id
                retiring := by simp [WorkerPc.retiring]
                asks := by simp [WorkerPc.asks]
                drains := Or.inl
                asked := Or.inl rfl
                draws := fun _ _ => by simpa using hdrained
                cursor := Or.inl rfl }
          next => exact moveEnds_plain rfl rfl rfl (by simp [WorkerPc.retiring])
  next =>
    obtain rfl := Option.some.inj hex
    exact moveEnds_plain rfl rfl rfl (by simp [WorkerPc.retiring])

theorem moveEnds_claim {window : Nat} (hpc : w.pc = .draw window) (hex : execClaim e w window = (e', w')) :
    MoveEnds e w a e' w' := by
  unfold execClaim at hex
  generalize hclaim : claimNext e w = r at hex
  obtain ⟨e₁, w₁, idx⟩ := r
  obtain ⟨he, hw, hidx, hcursor⟩ : (e₁ = { e with cursor := e₁.cursor }) ∧
      (w₁ = { w with claimCur := idx + 1, claimEnd := w₁.claimEnd }) ∧ e.cursor ≤ e₁.cursor ∧
      (e₁.cursor = e.cursor ∨ (idx = e.cursor ∧ e₁.cursor = e.cursor + claimChunk)) := by
    unfold claimNext at hclaim
    split at hclaim
    all_goals
      obtain ⟨rfl, rfl, rfl⟩ := hclaim
      simp
  rw [he, hw] at hex
  dsimp only at hex
  split at hex
  next hin =>
    obtain ⟨rfl, rfl⟩ := Prod.mk.inj hex
    exact
      { stopping := id
        status := rfl
        started := rfl
        drained := id
        retiring := by simp [WorkerPc.retiring]
        asks := fun _ h => (Option.some.inj h) ▸ hin
        drains := Or.inl
        asked := Or.inl rfl
        draws := by simp
        cursor := hcursor.imp_right fun ⟨hfirst, hnext⟩ =>
          ⟨⟨window, hpc⟩, hnext, hin.imp_right fun hlt => Or.inl (hfirst ▸ hlt)⟩ }
  next hout =>
    push Not at hout
    obtain ⟨rfl, rfl⟩ := Prod.mk.inj hex
    exact
      { stopping := id
        status := rfl
        started := rfl
        drained := fun _ => rfl
        retiring := by simp [WorkerPc.retiring]
        asks := by simp [WorkerPc.asks]
        drains := fun _ => Or.inr (Or.inl (Nat.le_succ_of_le hout.2))
        asked := Or.inl rfl
        draws := by simp
        cursor := hcursor.imp_right fun h => ⟨⟨window, hpc⟩, h.2, Or.inr (Or.inr rfl)⟩ }

/-- The task declines: the flags go up only. -/
theorem moveEnds_decline {window idx : Nat} {rc : TaskNext ι} {reason : TaskNext Unit}
    (hpc : w.pc = .ask window idx) (hrc : ∀ j, rc ≠ .job j)
    (hstopping : e.stopping = true → e'.stopping = true) (hstatus : e'.status = e.status)
    (hstarted : e'.started = e.started) (hcursor : e'.cursor = e.cursor) :
    MoveEnds e w (.answer rc) e' (decline { w with asked := w.asked ++ [(idx, rc)] } reason) where
  stopping := hstopping
  status := hstatus
  started := hstarted
  drained := fun _ => rfl
  retiring := by simp [decline, WorkerPc.retiring]
  asks := by simp [decline, WorkerPc.asks]
  drains := fun _ => Or.inr (Or.inr ⟨window, idx, rc, hpc, rfl, hrc⟩)
  asked := Or.inr ⟨window, idx, rc, hpc, rfl, rfl⟩
  draws := by simp [decline]
  cursor := Or.inl hcursor

theorem moveEnds_answer {window idx : Nat} {rc : TaskNext ι} (hpc : w.pc = .ask window idx)
    (hex : execAnswer e k w window idx rc = (e', w')) : MoveEnds e w (.answer rc) e' w' := by
  cases rc with
  | job j =>
    obtain ⟨rfl, rfl⟩ := Prod.mk.inj hex
    exact
      { stopping := id
        status := rfl
        started := rfl
        drained := id
        retiring := by simp [WorkerPc.retiring]
        asks := by simp [WorkerPc.asks]
        drains := Or.inl
        asked := Or.inr ⟨window, idx, _, hpc, rfl, rfl⟩
        draws := by simp
        cursor := Or.inl rfl }
  | exhausted =>
    obtain ⟨rfl, rfl⟩ := Prod.mk.inj hex
    exact moveEnds_decline hpc (by simp) id rfl rfl rfl
  | stopCondition =>
    obtain ⟨rfl, rfl⟩ := Prod.mk.inj hex
    exact moveEnds_decline hpc (by simp) id rfl rfl rfl
  | cancelled =>
    obtain ⟨rfl, rfl⟩ := Prod.mk.inj hex
    exact moveEnds_decline hpc (by simp) (fun _ => rfl) rfl rfl rfl
  | fatal =>
    obtain ⟨rfl, rfl⟩ := Prod.mk.inj hex
    exact moveEnds_decline hpc (by simp) (fun _ => engineFatal_stopping e k) (engineFatal_status e k)
      (engineFatal_started e k) (engineFatal_cursor e k)

theorem moveEnds_launch {window : Nat} {d : Drawn ι} {r : Launch} (hex : execLaunch w window d r = some w') :
    MoveEnds e w a e w' := by
  unfold execLaunch at hex
  split at hex
  next =>
    obtain rfl := Option.some.inj hex
    exact moveEnds_plain rfl rfl rfl (by simp [WorkerPc.retiring])
  next =>
    obtain ⟨v, hv, rfl⟩ := Option.map_eq_some_iff.mp hex
    obtain ⟨out, -, rfl⟩ := Option.map_eq_some_iff.mp hv
    exact moveEnds_plain rfl rfl rfl (by simp [WorkerPc.retiring])
  next =>
    unfold launchFailed at hex
    dsimp only at hex
    split at hex
    next =>
      obtain rfl := Option.some.inj hex
      exact moveEnds_plain rfl rfl rfl (by simp [WorkerPc.retiring])
    next =>
      split at hex
      next =>
        obtain rfl := Option.some.inj hex
        exact moveEnds_plain rfl rfl rfl (by simp [WorkerPc.retiring])
      next =>
        obtain ⟨v, hv, rfl⟩ := Option.map_eq_some_iff.mp hex
        obtain ⟨out, -, rfl⟩ := Option.map_eq_some_iff.mp hv
        exact moveEnds_plain rfl rfl rfl (by simp [WorkerPc.retiring])

theorem moveEnds_settle : MoveEnds e w a e (execSettle w) := by
  unfold execSettle
  split
  next h => exact moveEnds_plain rfl rfl rfl fun _ => Or.inr h.1
  next => exact moveEnds_plain rfl rfl rfl (by simp [WorkerPc.retiring])

theorem moveEnds_wait {r : Waited} (hex : execWait e k w r = (e', w')) : MoveEnds e w a e' w' := by
  cases r with
  | failed =>
    obtain ⟨rfl, rfl⟩ := Prod.mk.inj hex
    exact
      { stopping := fun _ => engineFatal_stopping e k
        status := engineFatal_status e k
        started := engineFatal_started e k
        drained := id
        retiring := fun _ => Or.inr (Or.inl (engineFatal_stopping e k))
        asks := by simp [WorkerPc.asks]
        drains := Or.inl
        asked := Or.inl rfl
        draws := by simp
        cursor := Or.inl (engineFatal_cursor e k) }
  | interrupted =>
    obtain ⟨rfl, rfl⟩ := Prod.mk.inj hex
    exact moveEnds_plain rfl rfl rfl (by simp [WorkerPc.retiring])
  | ready =>
    obtain ⟨rfl, rfl⟩ := Prod.mk.inj hex
    exact moveEnds_plain rfl rfl rfl (by simp [WorkerPc.retiring])

theorem moveEnds_retireSlot {s : Nat} (hpc : w.pc = .retireSlot s) (hex : execRetireSlot w s = some w') :
    MoveEnds e w a e w' := by
  have hretiring : w.pc.retiring = true := by rw [hpc]; rfl
  unfold execRetireSlot at hex
  split at hex
  next =>
    split at hex
    next =>
      obtain ⟨v, hv, rfl⟩ := Option.map_eq_some_iff.mp hex
      obtain ⟨out, -, rfl⟩ := Option.map_eq_some_iff.mp hv
      exact moveEnds_plain rfl rfl rfl fun _ => Or.inl hretiring
    next =>
      obtain rfl := Option.some.inj hex
      exact moveEnds_plain rfl rfl rfl fun _ => Or.inl hretiring
  next =>
    obtain rfl := Option.some.inj hex
    exact moveEnds_plain rfl rfl rfl fun _ => Or.inl hretiring

theorem moveEnds_retirePending {flag : Bool} (hpc : w.pc = .retirePending)
    (hex : execRetirePending e w flag = some w') : MoveEnds e w a e w' := by
  have hretiring : w.pc.retiring = true := by rw [hpc]; rfl
  unfold execRetirePending at hex
  split at hex
  next => simp at hex
  next =>
    split at hex
    next =>
      obtain ⟨v, hv, rfl⟩ := Option.map_eq_some_iff.mp hex
      obtain ⟨out, -, rfl⟩ := Option.map_eq_some_iff.mp hv
      exact moveEnds_plain rfl rfl rfl fun _ => Or.inl hretiring
    next =>
      obtain rfl := Option.some.inj hex
      exact moveEnds_plain rfl rfl rfl fun _ => Or.inl hretiring

theorem moveEnds_retireTail {flag : Bool} (hpc : w.pc = .retireTail)
    (hex : execRetireTail e w flag = some w') : MoveEnds e w a e w' := by
  unfold execRetireTail at hex
  split at hex
  next => simp at hex
  next =>
    obtain rfl := Option.some.inj hex
    exact moveEnds_plain rfl rfl rfl fun _ => Or.inl (by rw [hpc]; rfl)

theorem workerMove_ends (hmove : WorkerMove e k w a e' w') : MoveEnds e w a e' w' := by
  cases hmove with
  | loop _ hex => exact moveEnds_loop hex
  | fill _ hex => exact moveEnds_fill hex
  | claim hpc hex => exact moveEnds_claim hpc hex
  | answer hpc hex => exact moveEnds_answer hpc hex
  | launch _ hex => exact moveEnds_launch hex
  | settle _ => exact moveEnds_settle
  | wait _ hex => exact moveEnds_wait hex
  | finish hpc _ hex =>
    obtain ⟨out, -, rfl⟩ := Option.map_eq_some_iff.mp hex
    exact moveEnds_plain rfl rfl (by rw [show _ = WorkerPc.dispatch from hpc]; rfl) Or.inl
  | resume _ => exact moveEnds_plain rfl rfl rfl (by simp [WorkerPc.retiring])
  | retireSlot hpc hex => exact moveEnds_retireSlot hpc hex
  | retirePending hpc hex => exact moveEnds_retirePending hpc hex
  | retireTail hpc hex => exact moveEnds_retireTail hpc hex

end Moves

end Qanat
