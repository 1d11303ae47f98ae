import Mathlib.Data.List.Nodup
import Mathlib.Data.List.Perm.Basic
import Qanat.EngineStart

namespace Qanat

open Transition

variable {ι : Type}

/-- The busy slots. -/
def Worker.busySlots (w : Worker ι) : List Nat :=
  (List.range w.nslots).filter fun s => (w.slots[s]?.getD none).isSome

theorem SlotsOk.partition {w : Worker ι} (h : SlotsOk w.nslots w.slots w.freelist w.inflight) :
    (w.freelist ++ w.busySlots).Perm (List.range w.nslots) := by
  have hfree : ∀ s ∈ w.freelist, s < w.nslots := by
    intro s hs
    obtain ⟨hlt, -⟩ := List.getElem?_eq_some_iff.mp ((h.free s).mp hs)
    exact h.length ▸ hlt
  have hbusy : ∀ s, s ∈ w.busySlots ↔ s < w.nslots ∧ s ∉ w.freelist := by
    intro s
    unfold Worker.busySlots
    rw [List.mem_filter, List.mem_range, h.free]
    refine and_congr_right fun hlt => ?_
    obtain ⟨x, hx⟩ : ∃ x, w.slots[s]? = some x := ⟨_, List.getElem?_eq_getElem (h.length ▸ hlt)⟩
    rw [hx]
    cases x <;> simp
  have hnodup : (w.freelist ++ w.busySlots).Nodup := by
    refine List.nodup_append.mpr ⟨h.nodup, List.nodup_range.filter _, ?_⟩
    rintro s hs t ht rfl
    exact ((hbusy s).mp ht).2 hs
  refine (List.perm_ext_iff_of_nodup hnodup List.nodup_range).mpr fun s => ?_
  rw [List.mem_append, hbusy, List.mem_range]
  constructor
  · rintro (hs | hs)
    · exact hfree s hs
    · exact hs.1
  · intro hs
    by_cases hmem : s ∈ w.freelist
    · exact Or.inl hmem
    · exact Or.inr ⟨hs, hmem⟩

/-- A counter summed over the workers. -/
def Engine.total (c : Engine ι) (f : WStats → Nat) : Nat :=
  (c.workers.map fun w => f w.stats).sum

/-- The calls of `next` and their answers. -/
def Engine.asked (c : Engine ι) : List (Nat × TaskNext ι) :=
  c.workers.flatMap Worker.asked

/-- The jobs that `next` has returned, each with its index. -/
def Engine.drawn (c : Engine ι) : List (Drawn ι) :=
  c.workers.flatMap Worker.drawn

/-- The terminal events produced. -/
def Engine.events (c : Engine ι) : List (Event ι) :=
  c.workers.flatMap fun w => w.out.pushed

/-- A retired worker has settled every index it claimed and sent an event for every job it drew. -/
theorem WorkerInv.settled {cap : Nat} {w : Worker ι} (h : WorkerInv cap w) (hpc : w.pc = .done) :
    w.stats.claimed = w.stats.completed + w.stats.skipped + w.stats.unattempted ∧
    (w.out.pushed.map Event.job).Perm w.drawn ∧ w.out.prod = .idle ∧ w.claimCur = w.claimEnd := by
  unfold WorkerInv at h
  rw [hpc] at h
  obtain ⟨hinflight, hpending, hidle, hchunk⟩ := h.pcOk
  have hcore := h.core
  rw [hpending] at hcore
  have hbusy : busyJobs w.slots = [] := List.length_eq_zero_iff.mp (hcore.slots.busy.trans hinflight)
  have hbalance := hcore.balance
  have hjobs := hcore.jobs
  refine ⟨?_, ?_, hidle, hchunk⟩
  · dsimp only [WorkerPc.owed, WorkerPc.asking, Option.toList_none, List.length_nil] at hbalance
    omega
  · unfold RingSys.sent at hjobs
    simpa [hidle, PushPc.item, hbusy, WorkerPc.owed] using hjobs

theorem jobAt_sublist (l : List (Nat × TaskNext ι)) :
    ((l.filterMap TaskNext.jobAt).map Drawn.idx).Sublist (l.map Prod.fst) := by
  induction l with
  | nil => exact List.Sublist.slnil
  | cons x l ih =>
    obtain ⟨idx, rc⟩ := x
    cases rc with
    | job j => exact ih.cons_cons idx
    | _ => exact ih.cons idx

theorem drawn_sublist (c : Engine ι) : (c.drawn.map Drawn.idx).Sublist (c.asked.map Prod.fst) := by
  have hdrawn : c.drawn = c.asked.filterMap TaskNext.jobAt := by
    unfold Engine.drawn Engine.asked
    rw [List.filterMap_flatMap]
    rfl
  rw [hdrawn]
  exact jobAt_sublist _

/-- `next` is called at most once for an index, and only below the cursor. -/
theorem CursorInv.count_asked {c : Engine ι} (h : CursorInv c) (x : Nat) :
    (c.asked.map Prod.fst).count x ≤ if x < c.shared.cursor then 1 else 0 := by
  refine le_trans ?_ (h.once x)
  unfold Engine.asked
  rw [List.map_flatMap, List.count_flatMap]
  refine List.sum_le_sum fun w _ => ?_
  unfold ClaimView.held
  exact le_trans (Nat.le_add_right _ _) (Nat.le_add_right _ _)

theorem CursorInv.nodup_asked {c : Engine ι} (h : CursorInv c) : (c.asked.map Prod.fst).Nodup := by
  rw [List.nodup_iff_count_le_one]
  intro x
  have := h.count_asked x
  split at this <;> omega

section Runs

variable {perWorker : UInt32} {buf : UInt32 → Event ι} {nslots : List Nat} {domain : Nat} {c₀ c : Engine ι}

/-- No event is ever dropped and the slots stay accounted for, whatever the workers and the owner do. -/
theorem engine_drops_nothing (hstart : engineStart perWorker buf nslots domain = some c₀)
    (hreach : Reach engineStep (fun _ _ => True) c₀ c) :
    ∀ w ∈ c.workers, w.out.refused = [] ∧ w.out.ring.dropped = 0 ∧
      w.freelist.length + w.inflight = w.nslots ∧ w.busySlots.length = w.inflight ∧
      (w.freelist ++ w.busySlots).Perm (List.range w.nslots) := by
  obtain ⟨cap, h⟩ := reach_workersInv hstart hreach
  intro w hw
  have hcore := (h w hw).core
  obtain ⟨heads, P, S, hring, -, hdrop⟩ := hcore.room
  have hpart := hcore.slots.partition
  have hlen := hpart.length_eq
  have hcount := hcore.slots.count
  rw [List.length_append, List.length_range] at hlen
  refine ⟨?_, hdrop, hcount, by omega, hpart⟩
  rw [hring.dropped] at hdrop
  exact List.length_eq_zero_iff.mp hdrop

/-- Once every worker has retired, every claimed index is settled exactly once, the claims are the
cursor up to the domain, and the events are the jobs drawn, one for each index. The cursor and the claims
are natural numbers here: by `cursor_bounded` no 64-bit sum of them wraps round. -/
theorem engine_conserves_jobs (hstart : engineStart perWorker buf nslots domain = some c₀)
    (hreach : Reach engineStep (fun _ _ => True) c₀ c) (hjoined : c.joined = true) :
    c.total WStats.claimed =
      c.total WStats.completed + c.total WStats.skipped + c.total WStats.unattempted ∧
    c.total WStats.claimed = (if domain = 0 then c.shared.cursor else min c.shared.cursor domain) ∧
    (c.events.map Event.job).Perm c.drawn ∧ (c.drawn.map Drawn.idx).Nodup := by
  obtain ⟨cap, hworkers⟩ := reach_workersInv hstart hreach
  have hcursor := reach_cursorInv hstart hreach
  have hdomain := reach_domain hstart hreach
  have hsettled : ∀ w ∈ c.workers, _ := fun w hw => (hworkers w hw).settled (joined_iff.mp hjoined w hw)
  refine ⟨?_, ?_, ?_, (drawn_sublist c).nodup hcursor.nodup_asked⟩
  · unfold Engine.total
    rw [← List.sum_map_add, ← List.sum_map_add]
    exact congrArg List.sum (List.map_congr_left fun w hw => (hsettled w hw).1)
  · have hshare := hcursor.share
    rw [hdomain] at hshare
    change _ = clip domain c.shared.cursor
    rw [← hshare]
    refine congrArg List.sum (List.map_congr_left fun w hw => ?_)
    unfold ClaimView.share Worker.view
    dsimp only
    rw [(hsettled w hw).2.2.2, Nat.sub_self]
    rfl
  · unfold Engine.events Engine.drawn
    rw [List.map_flatMap]
    exact List.Perm.flatMap_left _ fun w hw => (hsettled w hw).2.1

end Runs

section Crew

def blankEvent : Event Unit :=
  ⟨⟨0, ()⟩, .pending, .clear⟩

/-- Two workers with two slots and one on a domain of 66 indexes: a launch fails and is tried again, a probe is
refused at once, the task stops the run, and the owner raises `stopping` with a probe still under way. -/
def crewActs : List (EngineAct Unit) :=
  [.worker 0 (.loop false 2), .worker 0 (.fill 0 true), .worker 1 (.loop false 1), .worker 1 (.fill 0 true),
    .worker 0 .claim, .worker 1 .claim, .worker 0 (.answer (.job ())), .worker 1 (.answer (.job ())),
    .worker 1 (.launch .failed), .worker 0 (.launch .flying), .worker 1 .settle, .worker 0 (.fill 0 true),
    .worker 0 .claim, .worker 1 (.wait .ready), .worker 1 .resume, .worker 0 (.answer (.job ())),
    .worker 0 (.launch (.finished .connRefused)), .worker 1 (.loop false 1), .ring 0 .finishWrite,
    .worker 1 (.fill 0 true), .ring 0 .storeTail, .worker 1 (.launch .flying), .worker 0 (.fill 0 true),
    .worker 0 .claim, .worker 0 (.answer .stopCondition), .worker 1 (.fill 0 true), .worker 0 .settle,
    .worker 0 (.wait .ready), .worker 1 .settle, .worker 0 (.finish 0 .opened), .ring 0 .finishWrite,
    .ring 0 .storeTail, .raise .stopping, .worker 0 .resume, .worker 1 (.wait .interrupted), .worker 0 (.loop true 2),
    .worker 1 (.loop true 1), .worker 1 (.retire false), .ring 1 .finishWrite, .worker 0 (.retire false),
    .worker 0 (.retire false), .ring 1 .storeTail, .worker 1 (.retire false), .worker 0 (.retire false),
    .worker 0 (.retire false), .worker 1 (.retire false), .worker 0 (.retire true), .worker 1 (.retire false)]

theorem crew_run : ∃ c₀ c, engineStart 2 (fun _ => blankEvent) [2, 1] 66 = some c₀ ∧
    crewActs.foldlM engineStep c₀ = some c ∧ c.joined = true ∧ c.shared.cursor = 128 ∧ c.drawn.length = 3 := by
  obtain ⟨c₀, h₀⟩ := engineStart_total 2 (fun _ => blankEvent) [2, 1] 66
  have hrun : ((engineStart 2 (fun _ => blankEvent) [2, 1] 66).bind (crewActs.foldlM engineStep)).map
      (fun c => (c.joined, c.shared.cursor, c.drawn.length)) = some (true, 128, 3) := by decide +kernel
  rw [h₀] at hrun
  obtain ⟨c, hc, hend⟩ := Option.map_eq_some_iff.mp hrun
  obtain ⟨hjoined, hend⟩ := Prod.mk.inj hend
  obtain ⟨hcursor, hdrawn⟩ := Prod.mk.inj hend
  exact ⟨c₀, c, h₀, hc, hjoined, hcursor, hdrawn⟩

theorem reach_crew {c₀ c : Engine Unit} (h : crewActs.foldlM engineStep c₀ = some c) :
    Reach engineStep (fun _ _ => True) c₀ c :=
  Reach.refl.actions (fun _ _ _ => trivial) h

end Crew

theorem engine_drops_nothing_crew : ∃ c₀ c, engineStart 2 (fun _ => blankEvent) [2, 1] 66 = some c₀ ∧
    crewActs.foldlM engineStep c₀ = some c ∧ ∀ w ∈ c.workers, w.out.refused = [] := by
  obtain ⟨c₀, c, hstart, hrun, -⟩ := crew_run
  have hreach := reach_crew hrun
  exact ⟨c₀, c, hstart, hrun, fun w hw => (engine_drops_nothing hstart hreach w hw).1⟩

theorem engine_conserves_jobs_crew : ∃ c₀ c, engineStart 2 (fun _ => blankEvent) [2, 1] 66 = some c₀ ∧
    crewActs.foldlM engineStep c₀ = some c ∧ c.joined = true ∧ c.total WStats.claimed = 66 ∧ c.events.length = 3 := by
  obtain ⟨c₀, c, hstart, hrun, hjoined, hcursor, hdrawn⟩ := crew_run
  have hreach := reach_crew hrun
  obtain ⟨-, hclaimed, hevents, -⟩ := engine_conserves_jobs hstart hreach hjoined
  rw [hcursor] at hclaimed
  have hlength := hevents.length_eq
  rw [List.length_map, hdrawn] at hlength
  exact ⟨c₀, c, hstart, hrun, hjoined, hclaimed, hlength⟩

end Qanat
