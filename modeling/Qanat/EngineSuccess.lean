import Qanat.EngineFinal

namespace Qanat

open Transition

variable {ι : Type}

theorem polled_flatMap {β : Type} {f : Worker ι → List β} {ws ws' : List (Worker ι)}
    (h : List.Forall₂ Polled ws ws') (hf : ∀ w w', Polled w w' → f w' = f w) : ws'.flatMap f = ws.flatMap f := by
  induction h with
  | nil => rfl
  | cons hw _ ih => rw [List.flatMap_cons, List.flatMap_cons, ih, hf _ _ hw]

section Ended

variable {c : Engine ι} {cap : Nat}

/-- A run that ended unstopped has called `next` for every index of the domain. -/
theorem SweepInv.covers (h : SweepInv c) (hinv : CursorInv c) (hworkers : ∀ w ∈ c.workers, WorkerInv cap w)
    (hne : c.workers ≠ []) (hjoined : c.joined = true) (hunstopped : c.shared.unstopped) :
    (c.asked.map Prod.fst).Perm (List.range c.shared.domain) := by
  have hdone := joined_iff.mp hjoined
  have hcursor : c.shared.domain ≤ c.shared.cursor := by
    obtain ⟨w, hw⟩ := List.exists_mem_of_ne_nil _ hne
    have hdrained := h.drained w hw (h.retiring hunstopped w hw (by rw [hdone w hw]; rfl))
    obtain ⟨hcur, hlast⟩ := hinv.chunk w hw
    omega
  have hheld : ∀ x, (c.workers.map fun w => w.view.held x).sum = (c.asked.map Prod.fst).count x := by
    intro x
    unfold Engine.asked
    rw [List.map_flatMap, List.count_flatMap]
    refine congrArg List.sum (List.map_congr_left fun w hw => ?_)
    have hchunk := ((hworkers w hw).settled (hdone w hw)).2.2.2
    unfold ClaimView.held Worker.view
    dsimp only [Function.comp]
    rw [hdone w hw, if_neg (by simp [WorkerPc.asks]), if_neg (by omega), Nat.add_zero]
  refine (List.perm_ext_iff_of_nodup hinv.nodup_asked List.nodup_range).mpr fun x => ?_
  rw [List.mem_range]
  constructor
  · intro hx
    obtain ⟨p, hp, rfl⟩ := List.mem_map.mp hx
    obtain ⟨w, hw, hpw⟩ := List.mem_flatMap.mp hp
    exact (h.within w hw p hpw).1
  · intro hx
    have hone := h.swept hunstopped x hx (by omega)
    rw [hheld] at hone
    exact List.count_pos_iff.mp hone

/-- Every call of `next` has returned a job. -/
theorem SweepInv.drawn_idx (h : SweepInv c) : c.drawn.map Drawn.idx = c.asked.map Prod.fst := by
  have hall : ∀ l : List (Nat × TaskNext ι), (∀ p ∈ l, ∃ j, p.2 = .job j) →
      (l.filterMap TaskNext.jobAt).map Drawn.idx = l.map Prod.fst := by
    intro l hl
    induction l with
    | nil => rfl
    | cons p l ih =>
      obtain ⟨idx, rc⟩ := p
      obtain ⟨j, hj⟩ := hl _ List.mem_cons_self
      dsimp only at hj
      subst hj
      exact congrArg (idx :: ·) (ih fun q hq => hl q (List.mem_cons_of_mem _ hq))
  unfold Engine.drawn Engine.asked
  rw [List.map_flatMap, List.map_flatMap]
  refine List.flatMap_congr fun w hw => hall _ fun p hp => (h.within w hw p hp).2

end Ended

section Finalize

variable {perWorker : UInt32} {buf : UInt32 → Event ι} {nslots : List Nat} {domain : Nat} {c₀ c c' : Engine ι}
  {cancel : Bool} {f : Finalization}

theorem reach_sweepInv (hstart : engineStart perWorker buf nslots domain = some c₀) (hdomain : domain ≠ 0)
    (hreach : Reach engineStep AnswersJobs c₀ c) : SweepInv c := by
  obtain ⟨acts, hrun⟩ := hreach
  induction hrun with
  | nil =>
    obtain ⟨r, -, rfl⟩ := Option.map_eq_some_iff.mp hstart
    have hall : ∀ w ∈ nslots.map (workerStart r), ∃ n, w = workerStart r n := by
      intro w hw
      obtain ⟨n, -, rfl⟩ := List.mem_map.mp hw
      exact ⟨n, rfl⟩
    refine ⟨Or.inl ⟨rfl, rfl⟩, ?_, ?_, ?_, ?_, ?_⟩
    · intro w hw idx hidx
      obtain ⟨n, rfl⟩ := hall w hw
      simp [workerStart, WorkerPc.asks] at hidx
    · intro w hw p hp
      obtain ⟨n, rfl⟩ := hall w hw
      simp [workerStart] at hp
    · intro w hw hd
      obtain ⟨n, rfl⟩ := hall w hw
      simp [workerStart] at hd
    · intro _ w hw hr
      obtain ⟨n, rfl⟩ := hall w hw
      simp [workerStart, WorkerPc.retiring] at hr
    · intro _ x _ hx
      exact absurd hx (Nat.not_lt_zero x)
  | snoc hrun hg hs ih =>
    refine sweepInv_step ih (reach_cursorInv hstart ⟨_, hrun⟩) ?_ hg hs
    rw [reach_domain hstart ⟨_, hrun⟩]
    exact hdomain

theorem PopPc.isIdle_iff {α : Type} {pc : PopPc α} : pc.isIdle = true ↔ pc = .idle := by
  cases pc <;> simp [PopPc.isIdle]

/-- `qn_engine_finalize` returns once the workers have retired. -/
theorem engineFinalize_total {guard : Engine ι → EngineAct ι → Prop}
    (hstart : engineStart perWorker buf nslots domain = some c₀) (hreach : Reach engineStep guard c₀ c)
    (hjoined : c.joined = true) (hidle : ∀ w ∈ c.workers, w.out.cons = .idle) (cancel : Bool) :
    ∃ r, engineFinalize c cancel = some r := by
  obtain ⟨cap, hworkers⟩ := reach_workersInv hstart hreach
  have hdrain : ∀ e, ∃ c', engineDrain (Engine.queued ⟨e, c.workers⟩ + 1) ⟨e, c.workers⟩ = some c' := by
    intro e
    refine engineDrain_total _ _ ?_ (Nat.lt_succ_self _)
    intro w hw
    obtain ⟨heads, P, S, hring, -⟩ := (hworkers w hw).core.room
    exact ⟨hidle w hw, cap, heads, P, S, hring⟩
  have hall : (c.workers.all fun w => w.out.cons.isIdle) = true :=
    List.all_eq_true.mpr fun w hw => PopPc.isIdle_iff.mpr (hidle w hw)
  have hjoin : ∀ e, ∃ e', engineJoin ⟨e, c.workers⟩ = some ⟨e', c.workers⟩ := by
    intro e
    unfold engineJoin
    split
    next => exact ⟨_, if_pos hjoined⟩
    next => exact ⟨e, rfl⟩
  obtain ⟨e, he⟩ : ∃ e, (if cancel then { c with shared := { c.shared with stopping := true } } else c) =
      ⟨e, c.workers⟩ := by
    cases cancel <;> exact ⟨_, rfl⟩
  obtain ⟨e', he'⟩ := hjoin e
  obtain ⟨c', hc'⟩ := hdrain e'
  unfold engineFinalize
  rw [he]
  dsimp only
  rw [if_pos hall, he', Option.bind_some, hc']
  exact ⟨_, rfl⟩

/-- `qn_engine_finalize` raises `stopping` if asked to, joins, and drains the rings. -/
theorem finalize_cases (hreach : Reach engineStep AnswersJobs c₀ c)
    (hfin : engineFinalize c cancel = some (f, c')) :
    ∃ c₁, Reach engineStep AnswersJobs c₀ c₁ ∧ (∃ c₂, engineJoin c₂ = some c₁) ∧
      (∀ w ∈ c₁.workers, w.out.cons = .idle) ∧ engineDrain (c₁.queued + 1) c₁ = some c' ∧
      f = ⟨engineStats c', (engineAccounted (engineStats c')).2, (engineAccounted (engineStats c')).1,
        c'.shared.fatal⟩ := by
  obtain ⟨c₂, hreach₂, hfin⟩ : ∃ c₂, Reach engineStep AnswersJobs c₀ c₂ ∧
      engineFinalize c₂ false = some (f, c') := by
    cases cancel with
    | false => exact ⟨c, hreach, hfin⟩
    | true =>
      exact ⟨_, hreach.tail (show AnswersJobs c (.raise .stopping) from trivial) rfl, hfin⟩
  simp only [engineFinalize, Bool.false_eq_true, if_false] at hfin
  split at hfin
  next hidle =>
    obtain ⟨c₁, hjoin, hfin⟩ := Option.bind_eq_some_iff.mp hfin
    obtain ⟨c₃, hdrain, hfin⟩ := Option.map_eq_some_iff.mp hfin
    obtain ⟨rfl, rfl⟩ := Prod.mk.inj hfin
    refine ⟨c₁, hreach₂.tail (show AnswersJobs c₂ .join from trivial) hjoin, ⟨c₂, hjoin⟩, ?_, hdrain, rfl⟩
    rw [(engineJoin_shape hjoin).1]
    intro w hw
    exact PopPc.isIdle_iff.mp (List.all_eq_true.mp hidle w hw)
  next => simp at hfin

theorem started_of_join (hjoin : engineJoin c = some c') : c'.shared.started = false := by
  unfold engineJoin at hjoin
  split at hjoin
  next =>
    split at hjoin
    next =>
      obtain rfl := Option.some.inj hjoin
      rfl
    next => simp at hjoin
  next hnot =>
    obtain rfl := Option.some.inj hjoin
    simpa using hnot

/-- A run reported as a success was neither stopped nor cut short by a failure. -/
theorem unstopped_of_success (h : SweepInv c) (hended : c.shared.started = false)
    (hstatus : f.stats.status = c.shared.status) (hsuccess : engineOutcome f = .success) :
    c.joined = true ∧ c.shared.unstopped := by
  rcases h.settled with ⟨hgoing, -⟩ | ⟨-, hrun, hjoined⟩
  · rw [hended] at hgoing
    simp at hgoing
  · refine ⟨hjoined, Or.inr ?_⟩
    unfold engineOutcome at hsuccess
    rw [hstatus] at hsuccess
    split_ifs at hsuccess with hfatal _ _ hcancelled _
    push Not at hfatal
    cases hs : c.shared.status with
    | running => exact absurd hs hrun
    | complete => exact Or.inl rfl
    | stopped => exact Or.inr rfl
    | cancelled => exact absurd hs hcancelled
    | fatal => exact absurd hs hfatal.2

/-- A run that `qn_engine_finalize` reports as a success has called `next` exactly once for every index
of the domain and for no other, and has handed exactly one event for every job to `on_event`. The 64-bit
cursor does not wrap on the way, by `cursor_bounded`. -/
theorem success_is_swept (hstart : engineStart perWorker buf nslots domain = some c₀) (hne : nslots ≠ [])
    (hdomain : domain ≠ 0) (hreach : Reach engineStep AnswersJobs c₀ c)
    (hfin : engineFinalize c cancel = some (f, c')) (hsuccess : engineOutcome f = .success) :
    (c'.asked.map Prod.fst).Perm (List.range domain) ∧
    (c'.drawn.map Drawn.idx).Perm (List.range domain) ∧
    (c'.delivered.map Event.job).Perm c'.drawn := by
  obtain ⟨c₁, hreach₁, ⟨c₂, hjoin⟩, hidle, hdrain, rfl⟩ := finalize_cases hreach hfin
  have hsweep := reach_sweepInv hstart hdomain hreach₁
  have hcursor := reach_cursorInv hstart hreach₁
  obtain ⟨cap, hworkers⟩ := reach_workersInv hstart hreach₁
  have hquiet : ∀ w ∈ c₁.workers, Quiet w := by
    intro w hw
    obtain ⟨heads, P, S, hring, -⟩ := (hworkers w hw).core.room
    exact ⟨hidle w hw, cap, heads, P, S, hring⟩
  obtain ⟨hshared, hpolled, hempty⟩ := engineDrain_spec _ hquiet hdrain
  obtain ⟨hjoined, hunstopped⟩ := unstopped_of_success hsweep (started_of_join hjoin)
    (show c'.shared.status = c₁.shared.status by rw [hshared]) hsuccess
  have hlength := reach_length hstart hreach₁
  have hnonempty : c₁.workers ≠ [] := by
    intro hnil
    rw [hnil] at hlength
    exact hne (List.length_eq_zero_iff.mp hlength.symm)
  have hcovers := hsweep.covers hcursor hworkers hnonempty hjoined hunstopped
  rw [reach_domain hstart hreach₁] at hcovers
  have hasked : c'.asked = c₁.asked :=
    polled_flatMap hpolled fun w w' h => by rw [h.rest]
  have hdrawn : c'.drawn = c₁.drawn :=
    polled_flatMap hpolled fun w w' h => by rw [h.rest]; rfl
  refine ⟨hasked ▸ hcovers, ?_, ?_⟩
  · rw [hdrawn, hsweep.drawn_idx]
    exact hcovers
  · have hdelivered : c'.delivered = c₁.events := by
      have hall : c'.delivered = c'.events := List.flatMap_congr fun w hw => hempty w hw
      rw [hall]
      exact polled_flatMap hpolled fun w w' h => h.pushed
    rw [hdelivered, hdrawn]
    unfold Engine.events Engine.drawn
    rw [List.map_flatMap]
    have hdone := joined_iff.mp hjoined
    exact List.Perm.flatMap_left _ fun w hw => ((hworkers w hw).settled (hdone w hw)).2.1

end Finalize

section Crew

/-- Two workers on a domain of two indexes: a launch fails and is tried again, a probe is under way while the
next one times out, and the second worker finds the domain claimed. -/
def sweepActs : List (EngineAct Unit) :=
  [.worker 0 (.loop false 2), .worker 0 (.fill 0 true), .worker 0 .claim, .worker 0 (.answer (.job ())),
    .worker 1 (.loop false 1), .worker 0 (.launch .failed), .worker 0 .settle, .worker 1 (.fill 0 true),
    .worker 1 .claim, .worker 1 .settle, .worker 0 (.wait .ready), .worker 0 .resume, .worker 1 (.retire false),
    .worker 0 (.loop false 2), .worker 0 (.fill 0 true), .worker 0 (.launch .flying), .worker 1 (.retire false),
    .worker 0 (.fill 0 true), .worker 0 .claim, .worker 0 (.answer (.job ())), .worker 0 (.launch (.finished .timedOut)),
    .worker 1 (.retire false), .ring 0 .finishWrite, .ring 0 .storeTail, .worker 1 (.retire false),
    .worker 0 (.fill 0 true), .worker 0 .claim, .worker 0 .settle, .worker 0 (.wait .ready),
    .worker 0 (.finish 0 .opened), .ring 0 .finishWrite, .ring 0 .storeTail, .worker 0 .resume,
    .worker 0 (.loop false 2), .worker 0 (.fill 0 true), .worker 0 .settle, .worker 0 (.retire false),
    .worker 0 (.retire false), .worker 0 (.retire false), .worker 0 (.retire false), .worker 0 (.retire false)]

/-- An answer of the task other than a job. -/
def EngineAct.declines : EngineAct Unit → Bool
  | .worker _ (.answer (.job _)) => false
  | .worker _ (.answer _) => true
  | _ => false

theorem answersJobs_of_declines {c : Engine Unit} {a : EngineAct Unit} (h : a.declines = false) : AnswersJobs c a := by
  unfold AnswersJobs
  split
  next i rc =>
    intro _ _ _ _ _ _
    cases rc with
    | job j => exact ⟨j, rfl⟩
    | _ => cases h
  next => trivial

end Crew

theorem success_is_swept_crew : ∃ c₀ c f c', engineStart 2 (fun _ => blankEvent) [2, 1] 2 = some c₀ ∧
    sweepActs.foldlM engineStep c₀ = some c ∧ engineFinalize c false = some (f, c') ∧
    engineOutcome f = .success ∧ (c'.asked.map Prod.fst).Perm [0, 1] := by
  obtain ⟨c₀, hstart⟩ := engineStart_total 2 (fun _ => blankEvent) [2, 1] 2
  have hend : ((engineStart 2 (fun _ => blankEvent) [2, 1] 2).bind (sweepActs.foldlM engineStep)).bind
      (fun c => (engineFinalize c false).map fun r => engineOutcome r.1) = some .success := by decide +kernel
  rw [hstart, Option.bind_some] at hend
  obtain ⟨c, hrun, hend⟩ := Option.bind_eq_some_iff.mp hend
  obtain ⟨⟨f, c'⟩, hfin, hsuccess⟩ := Option.map_eq_some_iff.mp hend
  have hjobs : ∀ a ∈ sweepActs, a.declines = false := by decide
  have hreach : Reach engineStep AnswersJobs c₀ c :=
    Reach.refl.actions (fun a ha _ => answersJobs_of_declines (hjobs a ha)) hrun
  exact ⟨c₀, c, f, c', hstart, hrun, hfin, hsuccess,
    (success_is_swept hstart (by decide) (by decide) hreach hfin hsuccess).1⟩

variable {ι : Type}

def drainedCount (ws : List (Worker ι)) : Nat :=
  (ws.map fun w => if w.drained then 1 else 0).sum

/-- Every chunk that starts beyond the domain drains its worker. -/
structure BoundInv (c : Engine ι) : Prop where
  draws : ∀ w ∈ c.workers, ∀ window, w.pc = .draw window → w.drained = false
  cursor : c.shared.domain ≠ 0 →
    c.shared.cursor < c.shared.domain + claimChunk + claimChunk * drainedCount c.workers

theorem BoundInv.worker {c : Engine ι} (h : BoundInv c) {i : Nat} {a : WorkerAct ι} {w w' : Worker ι}
    {e' : Shared} (hw : c.workers[i]? = some w) (hmove : WorkerMove c.shared i w a e' w') :
    BoundInv ⟨e', c.workers.set i w'⟩ := by
  have hends := workerMove_ends hmove
  have hmem := List.mem_of_getElem? hw
  refine ⟨?_, ?_⟩
  · intro u hu
    rcases List.mem_or_eq_of_mem_set hu with hu | rfl
    · exact h.draws u hu
    · exact hends.draws
  · dsimp only
    rw [workerMove_domain hmove]
    intro hdomain
    have hcursor := h.cursor hdomain
    have hsum := ListSum.sum_map_set (fun u : Worker ι => if u.drained then 1 else 0) w' hw
    unfold drainedCount at hcursor ⊢
    unfold claimChunk at hcursor ⊢
    have hkeep : (if w.drained then 1 else 0) ≤ if w'.drained then 1 else 0 := by
      split_ifs with hold hnew
      · exact le_refl 1
      · exact absurd (hends.drained hold) hnew
      · exact Nat.zero_le 1
      · exact le_refl 0
    rcases hends.cursor with hsame | ⟨⟨window, hpc⟩, hnext, hwhere⟩
    · rw [hsame]
      omega
    · rw [hnext]
      have hbefore := h.draws w hmem window hpc
      rw [hbefore] at hsum hkeep
      unfold claimChunk
      rcases hwhere with hzero | hlt | hafter
      · exact absurd hzero hdomain
      · omega
      · rw [hafter] at hsum
        simp only [Bool.false_eq_true, if_false, if_true] at hsum
        omega

theorem BoundInv.ring {c : Engine ι} (h : BoundInv c) {i : Nat} {w : Worker ι} (out : RingSys (Event ι))
    (hw : c.workers[i]? = some w) : BoundInv { c with workers := c.workers.set i { w with out := out } } := by
  refine ⟨?_, ?_⟩
  · intro u hu
    rcases List.mem_or_eq_of_mem_set hu with hu | rfl
    · exact h.draws u hu
    · exact h.draws w (List.mem_of_getElem? hw)
  · unfold drainedCount
    dsimp only
    rw [ListSum.map_set_of_eq (fun u : Worker ι => if u.drained then 1 else 0) (b := { w with out := out }) hw rfl]
    exact h.cursor

theorem boundInv_step {c c' : Engine ι} {a : EngineAct ι} (h : BoundInv c) (hstep : engineStep c a = some c') :
    BoundInv c' := by
  cases engineStep_move hstep with
  | worker hw _ hmove => exact h.worker hw hmove
  | ring hw _ _ => exact h.ring _ hw
  | raise f => cases f <;> exact ⟨h.draws, h.cursor⟩
  | join hjoin =>
    obtain ⟨hworkers, hcursor, hdomain⟩ := engineJoin_shape hjoin
    refine ⟨?_, ?_⟩
    · rw [hworkers]
      exact h.draws
    · rw [hworkers, hcursor, hdomain]
      exact h.cursor

/-- The cursor passes the domain by at most one chunk for each worker and one more, so that on a domain
that far from `2^64` none of the 64-bit sums of `claim_next` wraps round. -/
theorem cursor_bounded {perWorker : UInt32} {buf : UInt32 → Event ι} {nslots : List Nat} {domain : Nat}
    {c₀ c : Engine ι} (hstart : engineStart perWorker buf nslots domain = some c₀) (hdomain : domain ≠ 0)
    (hreach : Reach engineStep (fun _ _ => True) c₀ c) :
    c.shared.cursor < domain + claimChunk * (nslots.length + 1) := by
  have hbound : BoundInv c := by
    refine hreach.invariant ?_ fun _ _ _ h _ hstep => boundInv_step h hstep
    obtain ⟨r, -, rfl⟩ := Option.map_eq_some_iff.mp hstart
    refine ⟨?_, ?_⟩
    · intro w hw window hpc
      obtain ⟨n, -, rfl⟩ := List.mem_map.mp hw
      simp [workerStart] at hpc
    · intro _
      unfold claimChunk
      dsimp only
      omega
  have hlength := reach_length hstart hreach
  have hcount : drainedCount c.workers ≤ c.workers.length := by
    unfold drainedCount
    refine le_trans (List.sum_le_card_nsmul _ 1 ?_) ?_
    · intro x hx
      obtain ⟨w, -, rfl⟩ := List.mem_map.mp hx
      split <;> omega
    · simp
  have hcursor := hbound.cursor (by rw [reach_domain hstart hreach]; exact hdomain)
  rw [reach_domain hstart hreach] at hcursor
  unfold claimChunk at hcursor ⊢
  omega

end Qanat
