import Qanat.PortScan
import Qanat.General.Tally

namespace Qanat

open Tally

/-- The ports of the open table. -/
def PortScan.openPorts (s : PortScan) : List Nat :=
  s.found.map PortRecord.port

/-- How many ports of the scan have a state. -/
def PortScan.count (s : PortScan) (st : PortState) : Nat :=
  tally s.ports s.pstate st

/-- The books of a scan agree with the states of its ports. -/
structure PortScan.Accounted (s : PortScan) : Prop where
  nodup : s.ports.Nodup
  room : s.ports.length ≤ s.opencap
  refused : s.refused = s.count .closed
  filtered : s.filtered = s.count .filtered
  unreachable : s.unreachable = s.count .unreachable
  reset : s.reset = s.count .reset
  localErrors : s.localErrors = s.count .localError
  table : s.openPorts.Perm (marked s.ports s.pstate .opened)

/-- A port whose state may still change. -/
def PortState.Unsettled (st : PortState) : Prop :=
  st = .unknown ∨ st = .filtered

/-- What an event never touches. -/
def PortScan.fixed (s : PortScan) : Addr × List Nat × Perm × List Nat × Nat × PortPhase × Int × Nat × Nat :=
  (s.target, s.ports, s.perm, s.retry, s.opencap, s.phase, s.step, s.retryRound, s.retries)

/-- One for two equal states. -/
def PortState.same (a b : PortState) : Nat :=
  if a = b then 1 else 0

/-- A port gets a state, and the books follow. -/
structure PortSettles (s : PortScan) (port : Nat) (st : PortState) (s' : PortScan) : Prop where
  fixed : s'.fixed = s.fixed
  mark : s'.pstate = Function.update s.pstate port st
  refused : s'.refused + (s.pstate port).same .closed = s.refused + st.same .closed
  filtered : s'.filtered + (s.pstate port).same .filtered = s.filtered + st.same .filtered
  unreachable : s'.unreachable + (s.pstate port).same .unreachable = s.unreachable + st.same .unreachable
  reset : s'.reset + (s.pstate port).same .reset = s.reset + st.same .reset
  localErrors : s'.localErrors + (s.pstate port).same .localError = s.localErrors + st.same .localError
  table : s'.openPorts = s.openPorts ++ if st = .opened then [port] else []

/-- The state a result gives to a port that is not settled yet. -/
def settledState (prev : PortState) : Result → PortState
  | .cancelled => if prev = .unknown then .cancelled else prev
  | .opened => .opened
  | .refused => .closed
  | .timeout => .filtered
  | .unreach => .unreachable
  | .reset => .reset
  | .pending | .error => .localError

theorem PortScan.addHist_eq (s : PortScan) (rttUs : Nat) :
    s.addHist rttUs = { s with hist := s.hist ++ if rttUs ≠ 0 then [rttUs] else [] } := by
  unfold PortScan.addHist
  split
  · rfl
  · rw [List.append_nil]

theorem psOnResult_settles {s : PortScan} {ev : PortEvent} (hprev : (s.pstate ev.job.port).Unsettled)
    (hroom : s.found.length < s.opencap) (hpos : s.pstate ev.job.port = .filtered → s.filtered ≠ 0) :
    PortSettles s ev.job.port (settledState (s.pstate ev.job.port) ev.result) (psOnResult s ev) := by
  have hroom := Nat.not_le.mpr hroom
  have hself : Function.update s.pstate ev.job.port (s.pstate ev.job.port) = s.pstate := Function.update_eq_self _ _
  rcases hprev with h | h
  · constructor
    all_goals cases hr : ev.result
    all_goals simp [psOnResult, psRecordOpen, PortScan.setState, PortScan.unfilter, PortScan.addHist_eq,
      settledState, hr, h, hroom, PortState.same, PortScan.fixed, PortScan.openPorts]
  · have hpos := hpos h
    rw [h] at hself
    constructor
    all_goals cases hr : ev.result
    all_goals simp [psOnResult, psRecordOpen, PortScan.setState, PortScan.unfilter, PortScan.addHist_eq,
      settledState, hr, h, hroom, hpos, hself, PortState.same, PortScan.fixed, PortScan.openPorts]
    all_goals omega

theorem PortSettles.count {s s' : PortScan} {port : Nat} {st : PortState} (h : PortSettles s port st s') (ha : s.Accounted)
    (hp : port ∈ s.ports) (x : PortState) :
    s'.count x + (s.pstate port).same x = s.count x + st.same x := by
  have hports : s'.ports = s.ports := congrArg (fun f => f.2.1) h.fixed
  unfold PortScan.count
  rw [hports, h.mark]
  exact tally_update ha.nodup hp

theorem PortSettles.accounted {s s' : PortScan} {port : Nat} {st : PortState} (h : PortSettles s port st s')
    (ha : s.Accounted) (hp : port ∈ s.ports) (hprev : (s.pstate port).Unsettled) : s'.Accounted := by
  have hports : s'.ports = s.ports := congrArg (fun f => f.2.1) h.fixed
  have hcap : s'.opencap = s.opencap := congrArg (fun f => f.2.2.2.2.1) h.fixed
  have hne : s.pstate port ≠ .opened := by
    rcases hprev with hprev | hprev <;> rw [hprev] <;> decide
  constructor
  · rw [hports]
    exact ha.nodup
  · rw [hports, hcap]
    exact ha.room
  · have := h.refused
    have := h.count ha hp .closed
    have := ha.refused
    omega
  · have := h.filtered
    have := h.count ha hp .filtered
    have := ha.filtered
    omega
  · have := h.unreachable
    have := h.count ha hp .unreachable
    have := ha.unreachable
    omega
  · have := h.reset
    have := h.count ha hp .reset
    have := ha.reset
    omega
  · have := h.localErrors
    have := h.count ha hp .localError
    have := ha.localErrors
    omega
  · rw [h.table, h.mark, hports]
    by_cases hst : st = .opened
    · rw [if_pos hst, hst]
      exact (List.perm_append_singleton _ _).trans
        ((ha.table.cons port).trans (marked_update_self ha.nodup hp hne).symm)
    · rw [if_neg hst, List.append_nil, marked_update_other hne hst]
      exact ha.table

/-- The open table has room for a port that is not in it. -/
theorem PortScan.Accounted.found_lt {s : PortScan} (ha : s.Accounted) {port : Nat} (hp : port ∈ s.ports)
    (hprev : (s.pstate port).Unsettled) : s.found.length < s.opencap := by
  have hne : s.pstate port ≠ .opened := by
    rcases hprev with hprev | hprev <;> rw [hprev] <;> decide
  have hlen : s.found.length = tally s.ports s.pstate .opened := by
    rw [tally, ← ha.table.length_eq, PortScan.openPorts, List.length_map]
  have := tally_lt hp hne
  have := ha.room
  omega

theorem PortScan.Accounted.filtered_ne {s : PortScan} (ha : s.Accounted) {port : Nat} (hp : port ∈ s.ports)
    (h : s.pstate port = .filtered) : s.filtered ≠ 0 := by
  rw [ha.filtered]
  exact (tally_pos hp h).ne'

/-- Every result of an unsettled port of the scan is accounted for. -/
theorem PortScan.Accounted.settles {s : PortScan} (ha : s.Accounted) {ev : PortEvent} (hp : ev.job.port ∈ s.ports)
    (hprev : (s.pstate ev.job.port).Unsettled) :
    PortSettles s ev.job.port (settledState (s.pstate ev.job.port) ev.result) (psOnResult s ev) :=
  psOnResult_settles hprev (ha.found_lt hp hprev) (ha.filtered_ne hp)

/-- What a call of `port_scan_next_phase` does: some more steps, and the next phase with its list. -/
structure PhaseAdvances (s s' : PortScan) (more : Bool) : Prop where
  kept : s' = { s with step := s'.step, phase := s'.phase, retry := s'.retry, retryRound := s'.retryRound }
  step_lt : s.step < s'.step
  round_le : s.retryRound ≤ s'.retryRound
  retry : s'.retry = s.retry ∨ s'.retry = marked s.ports s.pstate .filtered
  turn : more = true ∧ s'.phase = .sweep ∧ s.step = -1 ∨
    more = true ∧ s'.phase = .retry ∧ s'.retry = marked s.ports s.pstate .filtered ∧
      s.retryRound < s'.retryRound ∧ s'.retryRound ≤ s.retries ∨
    more = true ∧ s'.phase = .banner ∧ s.phase ≠ .banner ∧ s.retries ≤ s'.retryRound ∨
    more = false ∧ s'.phase = .done

theorem nextPhaseLoop_advances {fuel : Nat} {s : PortScan} (hfuel : s.retries - s.retryRound < fuel)
    (hstep : -1 ≤ s.step) : ∃ s' more, nextPhaseLoop fuel s = some (s', more) ∧ PhaseAdvances s s' more := by
  induction fuel generalizing s with
  | zero => omega
  | succ fuel ih =>
    unfold nextPhaseLoop
    by_cases h0 : s.step + 1 = 0
    · refine ⟨_, true, if_pos h0, rfl, ?_, Nat.le_refl _, .inl rfl, .inl ⟨rfl, rfl, ?_⟩⟩
      · exact Int.lt_succ s.step
      · omega
    · by_cases hround : s.retryRound < s.retries
      · let t := psBuildRetry { s with step := s.step + 1, retryRound := s.retryRound + 1 }
        have hretry : t.retry = marked s.ports s.pstate .filtered := rfl
        by_cases hempty : t.retry = []
        · obtain ⟨s', more, hrun, ha⟩ := @ih t (show s.retries - (s.retryRound + 1) < fuel by omega)
            (show -1 ≤ s.step + 1 by omega)
          have hlt : s.step + 1 < s'.step := ha.step_lt
          have hle : s.retryRound + 1 ≤ s'.retryRound := ha.round_le
          refine ⟨s', more, ?_, ha.kept.trans rfl, by omega, by omega, .inr ?_, ?_⟩
          · rw [← hrun]
            exact (if_neg h0).trans ((if_pos hround).trans (if_pos hempty))
          · exact ha.retry.elim (·.trans hretry) id
          · rcases ha.turn with ⟨_, _, h⟩ | ⟨hm, hp, hr, _, h⟩ | h | h
            · have hstep' : s.step + 1 = -1 := h
              omega
            · exact .inr (.inl ⟨hm, hp, hr, by omega, h⟩)
            · exact .inr (.inr (.inl h))
            · exact .inr (.inr (.inr h))
        · refine ⟨{ t with phase := .retry }, true, ?_, rfl, Int.lt_succ s.step, Nat.le_succ _, .inr hretry,
            .inr (.inl ⟨rfl, rfl, hretry, Nat.lt_succ_self _, hround⟩)⟩
          exact (if_neg h0).trans ((if_pos hround).trans (if_neg hempty))
      · have hdone := Nat.le_of_not_lt hround
        by_cases hbanner : s.phase ≠ .banner ∧ s.found ≠ []
        · refine ⟨_, true, (if_neg h0).trans ((if_neg hround).trans (if_pos hbanner)), rfl, Int.lt_succ s.step,
            Nat.le_refl _, .inl rfl, .inr (.inr (.inl ⟨rfl, rfl, hbanner.1, hdone⟩))⟩
        · exact ⟨_, false, (if_neg h0).trans ((if_neg hround).trans (if_neg hbanner)), rfl, Int.lt_succ s.step,
            Nat.le_refl _, .inl rfl, .inr (.inr (.inr ⟨rfl, rfl⟩))⟩

theorem portScanNextPhase_advances {s : PortScan} (hstep : -1 ≤ s.step) :
    ∃ s' more, portScanNextPhase s = some (s', more) ∧ PhaseAdvances s s' more :=
  nextPhaseLoop_advances (Nat.lt_succ_self _) hstep

end Qanat
