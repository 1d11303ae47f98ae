import Qanat.EngineEnds

namespace Qanat

open Transition

variable {ι : Type}

/-- The task answers with a job for every index below its domain. -/
def AnswersJobs (c : Engine ι) : EngineAct ι → Prop
  | .worker i (.answer rc) => ∀ w window idx, c.workers[i]? = some w → w.pc = .ask window idx →
      idx < c.shared.domain → ∃ j, rc = .job j
  | _ => True

/-- The run was not stopped, or was stopped only after its end. -/
def Shared.unstopped (e : Shared) : Prop :=
  e.stopping = false ∨ e.status = .complete ∨ e.status = .stopped

structure SweepInv (c : Engine ι) : Prop where
  settled : (c.shared.started = true ∧ c.shared.status = .running) ∨
    (c.shared.started = false ∧ c.shared.status ≠ .running ∧ c.joined = true)
  asks : ∀ w ∈ c.workers, ∀ idx, w.pc.asks = some idx → idx < c.shared.domain
  within : ∀ w ∈ c.workers, ∀ p ∈ w.asked, p.1 < c.shared.domain ∧ ∃ j, p.2 = .job j
  drained : ∀ w ∈ c.workers, w.drained = true → c.shared.domain ≤ w.claimCur
  retiring : c.shared.unstopped → ∀ w ∈ c.workers, w.pc.retiring = true → w.drained = true
  swept : c.shared.unstopped → ∀ x < c.shared.domain, x < c.shared.cursor →
    1 ≤ (c.workers.map fun w => w.view.held x).sum

section Worker

variable {c : Engine ι} (h : SweepInv c) {i : Nat} {a : WorkerAct ι} {w w' : Worker ι} {e' : Shared}
  (hw : c.workers[i]? = some w) (hmove : WorkerMove c.shared i w a e' w')
include h hw hmove

/-- A worker that takes a step is not done. -/
theorem SweepInv.going : c.shared.started = true ∧ c.shared.status = .running := by
  rcases h.settled with hrun | ⟨-, -, hjoined⟩
  · exact hrun
  · have hpc := joined_iff.mp hjoined w (List.mem_of_getElem? hw)
    cases hmove <;> simp_all

theorem SweepInv.unstopped_before (hafter : e'.unstopped) : c.shared.stopping = false ∧ e'.stopping = false := by
  have hends := workerMove_ends hmove
  have hrun := (h.going hw hmove).2
  have hstop : e'.stopping = false := by
    rcases hafter with hstop | hstatus | hstatus
    · exact hstop
    · rw [hends.status, hrun] at hstatus
      simp at hstatus
    · rw [hends.status, hrun] at hstatus
      simp at hstatus
  refine ⟨?_, hstop⟩
  cases hs : c.shared.stopping with
  | false => rfl
  | true => rw [hends.stopping hs] at hstop; exact hstop

theorem SweepInv.worker (hinv : CursorInv c) (hdomain : c.shared.domain ≠ 0)
    (hanswers : AnswersJobs c (.worker i a)) : SweepInv ⟨e', c.workers.set i w'⟩ := by
  have hmem := List.mem_of_getElem? hw
  obtain ⟨hcur, hlast⟩ := hinv.chunk w hmem
  have hview := workerMove_view hmove hcur hlast
  have hends := workerMove_ends hmove
  have hsame := workerMove_domain hmove
  have hgoing := h.going hw hmove
  have hbefore := fun hafter => h.unstopped_before hw hmove hafter
  have hjob : ∀ window idx rc, w.pc = .ask window idx → a = .answer rc →
      idx < c.shared.domain ∧ ∃ j, rc = .job j := by
    rintro window idx rc hpc rfl
    have hlt := h.asks w hmem idx (by rw [hpc]; rfl)
    exact ⟨hlt, hanswers w window idx hw hpc hlt⟩
  refine ⟨?_, ?_, ?_, ?_, ?_, ?_⟩
  · refine Or.inl ⟨?_, ?_⟩
    · rw [hends.started]
      exact hgoing.1
    · rw [hends.status]
      exact hgoing.2
  · intro u hu idx hidx
    dsimp only at hu ⊢
    rw [hsame]
    rcases List.mem_or_eq_of_mem_set hu with hu | rfl
    · exact h.asks u hu idx hidx
    · exact (hends.asks idx hidx).resolve_left hdomain
  · intro u hu p hp
    dsimp only at hu ⊢
    rw [hsame]
    rcases List.mem_or_eq_of_mem_set hu with hu | rfl
    · exact h.within u hu p hp
    · rcases hends.asked with heq | ⟨window, idx, rc, hpc, ha, heq⟩
      · exact h.within w hmem p (heq ▸ hp)
      · rw [heq] at hp
        rcases List.mem_append.mp hp with hp | hp
        · exact h.within w hmem p hp
        · rw [List.mem_singleton.mp hp]
          exact hjob window idx rc hpc ha
  · intro u hu hdrained
    dsimp only at hu ⊢
    rw [hsame]
    rcases List.mem_or_eq_of_mem_set hu with hu | rfl
    · exact h.drained u hu hdrained
    · rcases hends.drains hdrained with hold | hout | ⟨window, idx, rc, hpc, ha, hnot⟩
      · exact le_trans (h.drained w hmem hold) hview.advance
      · exact hout
      · obtain ⟨-, j, hj⟩ := hjob window idx rc hpc ha
        exact absurd hj (hnot j)
  · intro hafter u hu hretiring
    obtain ⟨hstop, hstop'⟩ := hbefore hafter
    rcases List.mem_or_eq_of_mem_set hu with hu | rfl
    · exact h.retiring (Or.inl hstop) u hu hretiring
    · rcases hends.retiring hretiring with hold | hstopping | hdrained
      · exact hends.drained (h.retiring (Or.inl hstop) w hmem hold)
      · rw [hstop'] at hstopping
        simp at hstopping
      · exact hdrained
  · intro hafter x hx hlt
    obtain ⟨hstop, -⟩ := hbefore hafter
    dsimp only at hx hlt ⊢
    rw [hsame] at hx
    have hkept := hview.kept (fun hpc => h.drained w hmem
      (h.retiring (Or.inl hstop) w hmem (by rw [hpc]; rfl))) x hx
    have hsum := ListSum.sum_map_set (fun u => u.view.held x) w' hw
    have hle := ListSum.le_sum_map (fun u => u.view.held x) hw
    have hold := h.swept (Or.inl hstop) x hx
    split at hkept <;> omega

end Worker

theorem SweepInv.congr {c c' : Engine ι} (h : SweepInv c) (hworkers : c'.workers = c.workers)
    (hcursor : c'.shared.cursor = c.shared.cursor) (hdomain : c'.shared.domain = c.shared.domain)
    (hunstopped : c'.shared.unstopped → c.shared.unstopped)
    (hsettled : (c'.shared.started = true ∧ c'.shared.status = .running) ∨
      (c'.shared.started = false ∧ c'.shared.status ≠ .running ∧ c'.joined = true)) : SweepInv c' := by
  refine ⟨hsettled, ?_, ?_, ?_, ?_, ?_⟩
  · rw [hworkers, hdomain]
    exact h.asks
  · rw [hworkers, hdomain]
    exact h.within
  · rw [hworkers, hdomain]
    exact h.drained
  · rw [hworkers]
    exact fun hu => h.retiring (hunstopped hu)
  · rw [hworkers, hdomain, hcursor]
    exact fun hu => h.swept (hunstopped hu)

theorem SweepInv.raise {c : Engine ι} (h : SweepInv c) (f : Flag) :
    SweepInv { c with shared := c.shared.raise f } := by
  cases f with
  | stopping =>
    refine h.congr rfl rfl rfl ?_ h.settled
    rintro (hstop | hstatus)
    · simp [Shared.raise] at hstop
    · exact Or.inr hstatus
  | stopCondition => exact h.congr rfl rfl rfl id h.settled
  | fatal => exact h.congr rfl rfl rfl id h.settled

theorem SweepInv.join {c c' : Engine ι} (h : SweepInv c) (hjoin : engineJoin c = some c') : SweepInv c' := by
  unfold engineJoin at hjoin
  split at hjoin
  next =>
    split at hjoin
    next hjoined =>
      obtain rfl := Option.some.inj hjoin
      refine h.congr rfl rfl rfl ?_ (Or.inr ⟨rfl, ?_, hjoined⟩)
      · unfold Shared.unstopped settledStatus
        dsimp only
        intro hu
        cases hs : c.shared.stopping with
        | false => exact Or.inl rfl
        | true =>
          rw [hs] at hu
          cases hf : c.shared.fatal <;> simp [hf] at hu
      · unfold settledStatus
        dsimp only
        split_ifs <;> simp
    next => simp at hjoin
  next =>
    obtain rfl := Option.some.inj hjoin
    exact h

theorem SweepInv.ring {c : Engine ι} (h : SweepInv c) {i : Nat} {w : Worker ι} (out : RingSys (Event ι))
    (hw : c.workers[i]? = some w) :
    SweepInv { c with workers := c.workers.set i { w with out := out } } := by
  have hmem := List.mem_of_getElem? hw
  have hall : ∀ {P : Worker ι → Prop}, (∀ u ∈ c.workers, P u) → P { w with out := out } →
      ∀ u ∈ c.workers.set i { w with out := out }, P u := by
    intro P hold hnew u hu
    rcases List.mem_or_eq_of_mem_set hu with hu | rfl
    · exact hold u hu
    · exact hnew
  refine ⟨?_, hall h.asks (h.asks w hmem), hall h.within (h.within w hmem), hall h.drained (h.drained w hmem),
    fun hu => hall (h.retiring hu) (h.retiring hu w hmem), ?_⟩
  · refine h.settled.imp_right fun hend => ⟨hend.1, hend.2.1, ?_⟩
    have hdone := joined_iff.mp hend.2.2
    exact joined_iff.mpr (hall hdone (hdone w hmem))
  · intro hu x
    dsimp only
    rw [ListSum.map_set_of_eq (fun u => u.view.held x) (b := { w with out := out }) hw rfl]
    exact h.swept hu x

theorem sweepInv_step {c c' : Engine ι} {a : EngineAct ι} (h : SweepInv c) (hinv : CursorInv c)
    (hdomain : c.shared.domain ≠ 0) (hanswers : AnswersJobs c a) (hstep : engineStep c a = some c') :
    SweepInv c' := by
  cases engineStep_move hstep with
  | worker hw _ hmove => exact h.worker hw hmove hinv hdomain hanswers
  | ring hw _ _ => exact h.ring _ hw
  | raise f => exact h.raise f
  | join hjoin => exact h.join hjoin

end Qanat
