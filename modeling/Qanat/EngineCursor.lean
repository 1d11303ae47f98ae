import Qanat.EngineRun
import Qanat.EngineShare

namespace Qanat

variable {ι : Type}

section Moves

variable {e e' : Shared} {id : Nat} {w w' : Worker ι}

theorem finish_view {s : Nat} {d : Drawn ι} {res : Result} {origin : FailureOrigin}
    (h : probeFinishObs w s d res origin = some w') : w'.view = w.view := by
  obtain ⟨out, -, rfl⟩ := Option.map_eq_some_iff.mp h
  rfl

theorem withPc_view {pc : WorkerPc ι} (hw : w.pc.asks = none) (hpc : pc.asks = none) :
    ({ w with pc := pc } : Worker ι).view = w.view := by
  unfold Worker.view
  dsimp only
  rw [hw, hpc]

theorem fill_view {window j : Nat} {tokens : Bool} (hw : w.pc.asks = none)
    (hex : execFill w window j tokens = some w') : w'.view = w.view := by
  unfold execFill at hex
  split at hex
  next =>
    obtain ⟨out, -, rfl⟩ := Option.map_eq_some_iff.mp hex
    dsimp only
    repeat' split
    all_goals exact withPc_view (w := { w with out := out }) hw rfl
  next =>
    obtain rfl := Option.some.inj hex
    exact withPc_view hw rfl

theorem launchFailed_view {window : Nat} {d : Drawn ι} (hw : w.pc.asks = none)
    (hex : launchFailed w window d = some w') : w'.view = w.view := by
  unfold launchFailed at hex
  dsimp only at hex
  split at hex
  next =>
    obtain rfl := Option.some.inj hex
    exact withPc_view (w := { w with pending := some d }) hw rfl
  next =>
    split at hex
    next =>
      obtain rfl := Option.some.inj hex
      exact withPc_view (w := { w with pending := some d, pendingTries := w.pendingTries + 1 }) hw rfl
    next =>
      obtain ⟨v, hv, rfl⟩ := Option.map_eq_some_iff.mp hex
      obtain ⟨out, -, rfl⟩ := Option.map_eq_some_iff.mp hv
      exact withPc_view hw rfl

theorem launch_view {window : Nat} {d : Drawn ι} {r : Launch} (hw : w.pc.asks = none)
    (hex : execLaunch w window d r = some w') : w'.view = w.view := by
  unfold execLaunch at hex
  split at hex
  next s free hfree =>
    obtain rfl := Option.some.inj hex
    exact withPc_view hw rfl
  next err s free hfree =>
    obtain ⟨v, hv, rfl⟩ := Option.map_eq_some_iff.mp hex
    obtain ⟨out, -, rfl⟩ := Option.map_eq_some_iff.mp hv
    exact withPc_view hw rfl
  next => exact launchFailed_view hw hex

theorem retireSlot_view {s : Nat} (hw : w.pc.asks = none) (hex : execRetireSlot w s = some w') :
    w'.view = w.view := by
  unfold execRetireSlot at hex
  split at hex
  next =>
    split at hex
    next =>
      obtain ⟨v, hv, rfl⟩ := Option.map_eq_some_iff.mp hex
      obtain ⟨out, -, rfl⟩ := Option.map_eq_some_iff.mp hv
      exact withPc_view hw rfl
    next =>
      obtain rfl := Option.some.inj hex
      exact withPc_view hw rfl
  next =>
    obtain rfl := Option.some.inj hex
    exact withPc_view hw rfl

theorem retirePending_view {fatal : Bool} (hw : w.pc.asks = none)
    (hex : execRetirePending e w fatal = some w') : w'.view = w.view := by
  unfold execRetirePending at hex
  split at hex
  next => simp at hex
  next =>
    split at hex
    next =>
      obtain ⟨v, hv, rfl⟩ := Option.map_eq_some_iff.mp hex
      obtain ⟨out, -, rfl⟩ := Option.map_eq_some_iff.mp hv
      exact withPc_view hw rfl
    next =>
      obtain rfl := Option.some.inj hex
      exact withPc_view hw rfl

@[simp] theorem engineFatal_cursor (e : Shared) (id : Nat) : (engineFatal e id).cursor = e.cursor := by
  unfold engineFatal
  split <;> rfl

@[simp] theorem engineFatal_domain (e : Shared) (id : Nat) : (engineFatal e id).domain = e.domain := by
  unfold engineFatal
  split <;> rfl

/-- `claim_next` with the counting of `worker_fill`. -/
theorem claim_view (window : Nat) (hw : w.pc.asks = none) (hcur : w.claimCur ≤ w.claimEnd)
    (hlast : w.claimEnd ≤ e.cursor) :
    ViewStep e.domain False e.cursor w.view (execClaim e w window).1.cursor (execClaim e w window).2.view := by
  unfold execClaim claimNext
  by_cases hused : w.claimEnd ≤ w.claimCur
  · have hrefill : ViewStep e.domain False e.cursor w.view _ _ :=
      viewStep_refill (show w.claimCur = w.claimEnd by omega) hlast claimChunk
    rw [if_pos hused]
    dsimp only
    split
    next hin => exact hrefill.trans (viewStep_take (Nat.lt_add_of_pos_right (by decide)) (le_refl _) hw hin)
    next hout =>
      push Not at hout
      exact hrefill.trans (viewStep_over (Nat.lt_add_of_pos_right (by decide)) (le_refl _) hw hout.1 hout.2)
  · rw [if_neg hused]
    have hcur : w.view.cur < w.view.last := Nat.lt_of_not_le hused
    dsimp only
    split
    next hin => exact viewStep_take hcur hlast hw hin
    next hout =>
      push Not at hout
      exact viewStep_over hcur hlast hw hout.1 hout.2

theorem answer_view (e : Shared) (id : Nat) (w : Worker ι) (window idx : Nat) (rc : TaskNext ι) :
    (execAnswer e id w window idx rc).1.cursor = e.cursor ∧
    (execAnswer e id w window idx rc).1.domain = e.domain ∧
    (execAnswer e id w window idx rc).2.view =
      { w.view with asked := w.view.asked ++ [(idx, rc)], asks := none } := by
  cases rc with
  | fatal => exact ⟨engineFatal_cursor e id, engineFatal_domain e id, rfl⟩
  | _ => exact ⟨rfl, rfl, rfl⟩

theorem claim_domain (e : Shared) (w : Worker ι) (window : Nat) :
    (execClaim e w window).1.domain = e.domain := by
  unfold execClaim claimNext
  by_cases hused : w.claimEnd ≤ w.claimCur
  · rw [if_pos hused]
    dsimp only
    split <;> rfl
  · rw [if_neg hused]
    dsimp only
    split <;> rfl

theorem workerMove_domain {a : WorkerAct ι} (hmove : WorkerMove e id w a e' w') : e'.domain = e.domain := by
  cases hmove with
  | @claim window _ _ _ hex =>
    have hdomain := claim_domain e w window
    rw [hex] at hdomain
    exact hdomain
  | @answer window idx rc _ _ _ hex =>
    have hdomain := (answer_view e id w window idx rc).2.1
    rw [hex] at hdomain
    exact hdomain
  | @wait r _ _ _ hex =>
    cases r with
    | failed =>
      obtain ⟨rfl, -⟩ := Prod.mk.inj hex
      exact engineFatal_domain e id
    | interrupted =>
      obtain ⟨rfl, -⟩ := Prod.mk.inj hex
      rfl
    | ready =>
      obtain ⟨rfl, -⟩ := Prod.mk.inj hex
      rfl
  | _ => rfl

/-- What an operation of a worker does to the cursor and to the worker's share of it. -/
theorem workerMove_view {a : WorkerAct ι} (hmove : WorkerMove e id w a e' w')
    (hcur : w.claimCur ≤ w.claimEnd) (hlast : w.claimEnd ≤ e.cursor) :
    ViewStep e.domain (w.pc = .retireTail) e.cursor w.view e'.cursor w'.view := by
  have hsame : ∀ {u : Worker ι}, u.view = w.view →
      ViewStep e.domain (w.pc = .retireTail) e.cursor w.view e.cursor u.view := by
    intro u hu
    rw [hu]
    exact viewStep_same _ hcur hlast
  cases hmove with
  | loop hpc hex =>
    refine hsame ?_
    unfold execLoop at hex
    repeat' split at hex
    all_goals first
      | (obtain rfl := Option.some.inj hex
         exact withPc_view (by rw [hpc]; rfl) rfl)
      | simp at hex
  | fill hpc hex => exact hsame (fill_view (by rw [hpc]; rfl) hex)
  | @claim window _ _ hpc hex =>
    have hstep := claim_view window (by rw [hpc]; rfl) hcur hlast
    rw [hex] at hstep
    exact hstep.weaken _
  | @answer window idx rc _ _ hpc hex =>
    obtain ⟨hcursor, -, hview⟩ := answer_view e id w window idx rc
    rw [hex] at hcursor hview
    rw [hview, hcursor]
    exact (viewStep_answer hcur hlast (show w.pc.asks = some idx by rw [hpc]; rfl) rc).weaken _
  | launch hpc hex => exact hsame (launch_view (by rw [hpc]; rfl) hex)
  | settle hpc =>
    refine hsame ?_
    unfold execSettle
    split
    all_goals exact withPc_view (by rw [hpc]; rfl) rfl
  | @wait r _ _ hpc hex =>
    cases r with
    | failed =>
      obtain ⟨rfl, rfl⟩ := Prod.mk.inj hex
      rw [engineFatal_cursor]
      exact hsame (withPc_view (by rw [hpc]; rfl) rfl)
    | interrupted =>
      obtain ⟨rfl, rfl⟩ := Prod.mk.inj hex
      exact hsame (withPc_view (by rw [hpc]; rfl) rfl)
    | ready =>
      obtain ⟨rfl, rfl⟩ := Prod.mk.inj hex
      exact hsame (withPc_view (by rw [hpc]; rfl) rfl)
  | finish hpc hs hex => exact hsame (finish_view hex)
  | resume hpc => exact hsame (withPc_view (by rw [hpc]; rfl) rfl)
  | retireSlot hpc hex => exact hsame (retireSlot_view (by rw [hpc]; rfl) hex)
  | retirePending hpc hex => exact hsame (retirePending_view (by rw [hpc]; rfl) hex)
  | retireTail hpc hex =>
    unfold execRetireTail at hex
    split at hex
    next => simp at hex
    next =>
      obtain rfl := Option.some.inj hex
      exact viewStep_retire hpc hcur hlast (show w.pc.asks = none by rw [hpc]; rfl)

end Moves

end Qanat
