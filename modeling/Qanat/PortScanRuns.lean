import Qanat.PortScanInv

namespace Qanat

open Tally

/-- What the lists of a scan are made of. -/
structure PortScan.Prepared (s : PortScan) : Prop where
  perm_eq : ∃ seed, s.perm = permInit s.ports.length seed
  ports_le : s.ports.length ≤ 2 ^ 64
  retry_nodup : s.retry.Nodup
  retry_sub : ∀ p ∈ s.retry, p ∈ s.ports
  step_ge : -1 ≤ s.step

theorem TaskNext.job_inj {ι : Type} {a b : ι} (h : TaskNext.job a = .job b) : a = b := by
  injection h

section Jobs

variable {s s' : PortScan} {i k : Nat} {a b : Job}

theorem PortScan.job_sweep (hp : s.phase = .sweep) (h : s.job i = .job a) :
    i < s.ports.length ∧ a.port = s.ports.getD (permApply s.perm i) 0 := by
  rw [PortScan.job, hp] at h
  by_cases hi : s.ports.length ≤ i
  · exact absurd ((if_pos hi).symm.trans h) (by intro hc; cases hc)
  · exact ⟨Nat.lt_of_not_le hi, congrArg Job.port (TaskNext.job_inj ((if_neg hi).symm.trans h)).symm⟩

theorem PortScan.job_retry (hp : s.phase = .retry) (h : s.job i = .job a) :
    i < s.retry.length ∧ a.port = s.retry.getD i 0 := by
  rw [PortScan.job, hp] at h
  by_cases hi : s.retry.length ≤ i
  · exact absurd ((if_pos hi).symm.trans h) (by intro hc; cases hc)
  · exact ⟨Nat.lt_of_not_le hi, congrArg Job.port (TaskNext.job_inj ((if_neg hi).symm.trans h)).symm⟩

theorem PortScan.job_done (hp : s.phase = .done) : s.job i ≠ .job a := by
  rw [PortScan.job, hp]
  intro hc
  cases hc

/-- A job of the sweep or of a confirmation is about a port of the scan. -/
theorem PortScan.Prepared.job_mem (hs : s.Prepared) (hp : s.phase ≠ .banner) (h : s.job i = .job a) :
    a.port ∈ s.ports := by
  cases hphase : s.phase with
  | sweep =>
    obtain ⟨hi, hport⟩ := PortScan.job_sweep hphase h
    obtain ⟨seed, hperm⟩ := hs.perm_eq
    have hlt := permApply_lt seed hs.ports_le hi
    rw [hport, hperm, List.getD_eq_getElem _ _ hlt]
    exact List.getElem_mem hlt
  | retry =>
    obtain ⟨hi, hport⟩ := PortScan.job_retry hphase h
    rw [hport, List.getD_eq_getElem _ _ hi]
    exact hs.retry_sub _ (List.getElem_mem hi)
  | banner => exact absurd hphase hp
  | done => exact absurd h (PortScan.job_done hphase)

/-- No two jobs of the sweep, or of a confirmation, are about one port. -/
theorem PortScan.Prepared.job_injective (hs : s.Prepared) (hn : s.ports.Nodup) (hp : s.phase ≠ .banner)
    (hi : s.job i = .job a) (hk : s.job k = .job b) (h : a.port = b.port) : i = k := by
  cases hphase : s.phase with
  | sweep =>
    obtain ⟨hilt, hiport⟩ := PortScan.job_sweep hphase hi
    obtain ⟨hklt, hkport⟩ := PortScan.job_sweep hphase hk
    obtain ⟨seed, hperm⟩ := hs.perm_eq
    have hia := permApply_lt seed hs.ports_le hilt
    have hka := permApply_lt seed hs.ports_le hklt
    rw [hiport, hkport, hperm, List.getD_eq_getElem _ _ hia, List.getD_eq_getElem _ _ hka] at h
    exact permApply_injective seed hs.ports_le hilt hklt (hn.getElem_inj_iff.mp h)
  | retry =>
    obtain ⟨hilt, hiport⟩ := PortScan.job_retry hphase hi
    obtain ⟨hklt, hkport⟩ := PortScan.job_retry hphase hk
    rw [hiport, hkport, List.getD_eq_getElem _ _ hilt, List.getD_eq_getElem _ _ hklt] at h
    exact hs.retry_nodup.getElem_inj_iff.mp h
  | banner => exact absurd hphase hp
  | done => exact absurd hi (PortScan.job_done hphase)

/-- The jobs of a phase do not depend on what its events change. -/
theorem PortScan.job_congr (h : s'.fixed = s.fixed) (hp : s.phase ≠ .banner) : s'.job i = s.job i := by
  obtain ⟨target, ports, perm, pstate, retry, found, opencap⟩ := s
  obtain ⟨target', ports', perm', pstate', retry', found', opencap'⟩ := s'
  simp only [PortScan.fixed, Prod.mk.injEq] at h
  obtain ⟨rfl, rfl, rfl, rfl, rfl, rfl, rfl, rfl, rfl⟩ := h
  unfold PortScan.job
  dsimp only at hp ⊢
  split
  · rfl
  · rfl
  · exact absurd rfl hp
  · rfl

end Jobs

/-- How many calls of `port_scan_next_phase` are left at most. -/
def PortRun.budget (r : PortRun) : Nat :=
  if r.ended then 0
  else (if r.scan.step = -1 then 1 else 0) + (r.scan.retries - r.scan.retryRound) +
    (if r.scan.phase = .banner then 0 else 1) + 1

/-- What holds in every state of a scan that makes `n` calls at most. -/
structure PortRun.Inv (n : Nat) (r : PortRun) : Prop where
  accounted : r.scan.Accounted
  prepared : r.scan.Prepared
  pending_nodup : r.pending.Nodup
  fresh : r.scan.phase ≠ .banner → ∀ i ∈ r.pending, ∀ j, r.scan.job i = .job j → (r.scan.pstate j.port).Unsettled
  unstarted : r.scan.step = -1 → r.scan.phase = .sweep ∧ r.pending = [] ∧ ∀ p, r.scan.pstate p = .unknown
  rounds : r.scan.phase = .banner → r.scan.retries ≤ r.scan.retryRound
  told : ∀ p, ((p, .opened) ∈ r.observed → r.scan.pstate p = .opened) ∧
    ((p, .refused) ∈ r.observed → r.scan.pstate p = .closed)
  calls : r.calls + r.budget ≤ n

section Advance

variable {s s' : PortScan} {more : Bool}

theorem PhaseAdvances.accounted (h : PhaseAdvances s s' more) (ha : s.Accounted) : s'.Accounted := by
  rw [h.kept]
  exact ⟨ha.nodup, ha.room, ha.refused, ha.filtered, ha.unreachable, ha.reset, ha.localErrors, ha.table⟩

theorem PhaseAdvances.ports (h : PhaseAdvances s s' more) : s'.ports = s.ports :=
  (congrArg PortScan.ports h.kept).trans rfl

theorem PhaseAdvances.pstate (h : PhaseAdvances s s' more) : s'.pstate = s.pstate :=
  (congrArg PortScan.pstate h.kept).trans rfl

theorem PhaseAdvances.retries (h : PhaseAdvances s s' more) : s'.retries = s.retries :=
  (congrArg PortScan.retries h.kept).trans rfl

theorem PhaseAdvances.prepared (h : PhaseAdvances s s' more) (ha : s.Accounted) (hs : s.Prepared) : s'.Prepared := by
  have hperm : s'.perm = s.perm := (congrArg PortScan.perm h.kept).trans rfl
  constructor
  · rw [hperm, h.ports]
    exact hs.perm_eq
  · rw [h.ports]
    exact hs.ports_le
  · rcases h.retry with hr | hr <;> rw [hr]
    · exact hs.retry_nodup
    · exact nodup_marked ha.nodup
  · rcases h.retry with hr | hr <;> rw [hr, h.ports]
    · exact hs.retry_sub
    · exact fun p hp => (mem_marked.mp hp).1
  · exact hs.step_ge.trans h.step_lt.le

/-- The next phase takes up ports that are not settled. -/
theorem PhaseAdvances.fresh (h : PhaseAdvances s s' more) (hun : s.step = -1 → ∀ p, s.pstate p = .unknown)
    (hp : s'.phase ≠ .banner) {i : Nat} {j : Job} (hj : s'.job i = .job j) : (s'.pstate j.port).Unsettled := by
  rw [h.pstate]
  rcases h.turn with ⟨_, _, hfirst⟩ | ⟨_, hphase, hretry, _⟩ | ⟨_, hphase, _⟩ | ⟨_, hphase⟩
  · exact .inl (hun hfirst _)
  · obtain ⟨hi, hport⟩ := PortScan.job_retry hphase hj
    have hmem : j.port ∈ s'.retry := by
      rw [hport, List.getD_eq_getElem _ _ hi]
      exact List.getElem_mem hi
    rw [hretry] at hmem
    exact .inr (mem_marked.mp hmem).2
  · exact absurd hphase hp
  · exact absurd hj (PortScan.job_done hphase)

end Advance

theorem PortRun.Inv.nextPhase {n : Nat} {r : PortRun} (hr : r.Inv n) (hended : ¬r.ended) {s' : PortScan} {more : Bool}
    (h : PhaseAdvances r.scan s' more) :
    PortRun.Inv n { r with scan := s', pending := if more then List.range s'.total else [], ended := !more,
                           calls := r.calls + 1 } where
  accounted := h.accounted hr.accounted
  prepared := h.prepared hr.accounted hr.prepared
  pending_nodup := by
    dsimp only
    split
    · exact List.nodup_range
    · exact List.nodup_nil
  fresh hp _ _ _ hj := h.fresh (fun hfirst => (hr.unstarted hfirst).2.2) hp hj
  unstarted hfirst := by
    have := h.step_lt
    have := hr.prepared.step_ge
    have : s'.step = -1 := hfirst
    omega
  rounds hp := by
    have hp : s'.phase = .banner := hp
    show s'.retries ≤ s'.retryRound
    rw [h.retries]
    rcases h.turn with ⟨_, hphase, _⟩ | ⟨_, hphase, _⟩ | ⟨_, _, _, hrounds⟩ | ⟨_, hphase⟩
    · rw [hp] at hphase
      cases hphase
    · rw [hp] at hphase
      cases hphase
    · exact hrounds
    · rw [hp] at hphase
      cases hphase
  told p := by
    show (_ → s'.pstate p = _) ∧ (_ → s'.pstate p = _)
    rw [h.pstate]
    exact hr.told p
  calls := by
    have hcalls := hr.calls
    have hround := h.round_le
    have hstep := h.step_lt
    have hge := hr.prepared.step_ge
    have hstep' : s'.step ≠ -1 := by omega
    rw [PortRun.budget, if_neg hended] at hcalls
    unfold PortRun.budget
    dsimp only
    rw [h.retries, if_neg hstep']
    rcases h.turn with ⟨rfl, hphase, hfirst⟩ | ⟨rfl, hphase, _, hlt, hle⟩ | ⟨rfl, hphase, hne, hrounds⟩ | ⟨rfl, _⟩
    · rw [if_pos hfirst, (hr.unstarted hfirst).1] at hcalls
      rw [hphase]
      simp only [reduceCtorEq, if_false, Bool.not_true, Bool.false_eq_true] at hcalls ⊢
      omega
    · have hne : r.scan.phase ≠ .banner := fun hb => by
        have := hr.rounds hb
        omega
      rw [if_neg hne] at hcalls
      rw [hphase]
      simp only [reduceCtorEq, if_false, Bool.not_true, Bool.false_eq_true]
      omega
    · rw [if_neg hne] at hcalls
      rw [hphase]
      simp only [if_true, if_false, Bool.not_true, Bool.false_eq_true]
      omega
    · simp only [Bool.not_false, if_true]
      omega

section Events

variable {n : Nat} {r : PortRun} {i : Nat} {j : Job} {ev : PortEvent}

/-- A banner changes nothing but the text of a port in the table. -/
theorem psOnBanner_kept (s : PortScan) (ev : PortEvent) :
    ∃ found, psOnBanner s ev = { s with found := found } ∧
      found.map PortRecord.port = s.found.map PortRecord.port := by
  unfold psOnBanner
  split
  · exact ⟨s.found, rfl, rfl⟩
  · refine ⟨_, rfl, ?_⟩
    refine List.ext_getElem (by simp) fun k hk hk' => ?_
    simp only [List.getElem_map, List.getElem_modify]
    split <;> rfl

theorem PortRun.Inv.banner (hr : r.Inv n) (hphase : r.scan.phase = .banner) :
    PortRun.Inv n { r with scan := psOnBanner r.scan ev, pending := r.pending.erase i } := by
  obtain ⟨found, heq, hports⟩ := psOnBanner_kept r.scan ev
  rw [heq]
  have ha := hr.accounted
  have hs := hr.prepared
  refine ⟨⟨ha.nodup, ha.room, ha.refused, ha.filtered, ha.unreachable, ha.reset, ha.localErrors, ?_⟩,
    ⟨hs.perm_eq, hs.ports_le, hs.retry_nodup, hs.retry_sub, hs.step_ge⟩, hr.pending_nodup.erase i,
    fun h => absurd hphase h, fun h => absurd (hphase.symm.trans (hr.unstarted h).1) (by decide), hr.rounds,
    hr.told, hr.calls⟩
  show (found.map PortRecord.port).Perm _
  rw [hports]
  exact ha.table

/-- An unsettled port is in no message so far. -/
theorem PortRun.Inv.untold (hr : r.Inv n) {p : Nat} (hprev : (r.scan.pstate p).Unsettled) :
    (p, .opened) ∉ r.observed ∧ (p, .refused) ∉ r.observed := by
  constructor <;> intro h
  · have hst := (hr.told p).1 h
    rw [hst] at hprev
    rcases hprev with hc | hc <;> cases hc
  · have hst := (hr.told p).2 h
    rw [hst] at hprev
    rcases hprev with hc | hc <;> cases hc

theorem PortRun.Inv.result (hr : r.Inv n) (hphase : r.scan.phase ≠ .banner) (hi : i ∈ r.pending)
    (hj : r.scan.job i = .job ev.job) :
    PortRun.Inv n { r with scan := psOnResult r.scan ev, pending := r.pending.erase i,
                           observed := r.observed ++ [(ev.job.port, ev.result)] } := by
  have hprev := hr.fresh hphase i hi ev.job hj
  have hmem := hr.prepared.job_mem hphase hj
  have hset := hr.accounted.settles hmem hprev
  have hs := hr.prepared
  generalize psOnResult r.scan ev = s' at hset ⊢
  have hfixed := hset.fixed
  simp only [PortScan.fixed, Prod.mk.injEq] at hfixed
  obtain ⟨-, hports, hperm, hretry, -, hphase', hstep, hround, hretries⟩ := hfixed
  constructor
  · exact hset.accounted hr.accounted hmem hprev
  · constructor
    · show ∃ seed, s'.perm = permInit s'.ports.length seed
      rw [hports, hperm]
      exact hs.perm_eq
    · show s'.ports.length ≤ _
      rw [hports]
      exact hs.ports_le
    · show s'.retry.Nodup
      rw [hretry]
      exact hs.retry_nodup
    · show ∀ p ∈ s'.retry, p ∈ s'.ports
      rw [hretry, hports]
      exact hs.retry_sub
    · show -1 ≤ s'.step
      rw [hstep]
      exact hs.step_ge
  · exact hr.pending_nodup.erase i
  · -- the ports of the other jobs are other ports
    intro _ k hk b hb
    have hb : r.scan.job k = .job b := (PortScan.job_congr hset.fixed hphase).symm.trans hb
    obtain ⟨hki, hk⟩ := hr.pending_nodup.mem_erase_iff.mp hk
    have hne : b.port ≠ ev.job.port := fun heq => hki (hs.job_injective hr.accounted.nodup hphase hb hj heq)
    show (s'.pstate b.port).Unsettled
    rw [hset.mark, Function.update_of_ne hne]
    exact hr.fresh hphase k hk b hb
  · intro hfirst
    have hnone := (hr.unstarted (hstep.symm.trans hfirst)).2.1
    rw [hnone] at hi
    cases hi
  · intro hb
    have hb : s'.phase = .banner := hb
    exact absurd (hphase'.symm.trans hb) hphase
  · intro p
    show (_ → s'.pstate p = _) ∧ (_ → s'.pstate p = _)
    rw [hset.mark]
    by_cases hp : p = ev.job.port
    · subst hp
      rw [Function.update_self]
      constructor <;> intro htold
      · rcases List.mem_append.mp htold with hold | hnew
        · exact absurd hold (hr.untold hprev).1
        · rw [← (Prod.mk.inj (List.mem_singleton.mp hnew)).2]
          rfl
      · rcases List.mem_append.mp htold with hold | hnew
        · exact absurd hold (hr.untold hprev).2
        · rw [← (Prod.mk.inj (List.mem_singleton.mp hnew)).2]
          rfl
    · rw [Function.update_of_ne hp]
      constructor <;> intro htold
      · rcases List.mem_append.mp htold with hold | hnew
        · exact (hr.told p).1 hold
        · exact absurd (Prod.mk.inj (List.mem_singleton.mp hnew)).1 hp
      · rcases List.mem_append.mp htold with hold | hnew
        · exact (hr.told p).2 hold
        · exact absurd (Prod.mk.inj (List.mem_singleton.mp hnew)).1 hp
  · show r.calls + PortRun.budget _ ≤ n
    have hcalls := hr.calls
    unfold PortRun.budget at hcalls ⊢
    dsimp only
    rw [hstep, hphase', hround, hretries]
    exact hcalls

end Events

/-- What no later step takes back. -/
structure PortScan.Keeps (s s' : PortScan) : Prop where
  ports : s'.ports = s.ports
  settled : ∀ p, s.pstate p = .opened ∨ s.pstate p = .closed → s'.pstate p = s.pstate p

theorem PortScan.Keeps.refl (s : PortScan) : s.Keeps s :=
  ⟨rfl, fun _ _ => rfl⟩

theorem PortScan.Keeps.trans {s t u : PortScan} (h : s.Keeps t) (h' : t.Keeps u) : s.Keeps u where
  ports := h'.ports.trans h.ports
  settled p hp := by
    have ht := h.settled p hp
    rw [← ht] at hp
    exact (h'.settled p hp).trans ht

theorem PortSettles.keeps {s s' : PortScan} {port : Nat} {st : PortState} (h : PortSettles s port st s')
    (hprev : (s.pstate port).Unsettled) : s.Keeps s' where
  ports := congrArg (fun f => f.2.1) h.fixed
  settled p hp := by
    have hne : p ≠ port := by
      rintro rfl
      rcases hp with hp | hp <;> rw [hp] at hprev <;> rcases hprev with hc | hc <;> cases hc
    rw [h.mark, Function.update_of_ne hne]

theorem PortRun.Inv.step {n : Nat} {r r' : PortRun} (hr : r.Inv n) {a : PortAct} (h : r.step a = some r') :
    r'.Inv n ∧ r.scan.Keeps r'.scan := by
  cases a with
  | nextPhase =>
    by_cases hended : r.ended
    · exact absurd ((if_pos hended).symm.trans h) (Option.some_ne_none _).symm
    · obtain ⟨s', more, hnext, hadv⟩ := portScanNextPhase_advances hr.prepared.step_ge
      have h := (if_neg hended).symm.trans h
      rw [hnext] at h
      obtain rfl := Option.some.inj h
      exact ⟨hr.nextPhase hended hadv, hadv.ports, fun p _ => congrFun hadv.pstate p⟩
  | event i result rttUs body =>
    by_cases hi : i ∈ r.pending
    · have h := (if_pos hi).symm.trans h
      cases hj : r.scan.job i with
      | job j =>
        rw [hj] at h
        obtain rfl := Option.some.inj h
        by_cases hphase : r.scan.phase = .banner
        · obtain ⟨found, heq, -⟩ := psOnBanner_kept r.scan ⟨j, result, rttUs, body⟩
          rw [PortScan.onEvent, if_pos hphase, if_pos hphase]
          refine ⟨hr.banner hphase, ?_⟩
          rw [heq]
          exact ⟨rfl, fun _ _ => rfl⟩
        · rw [PortScan.onEvent, if_neg hphase, if_neg hphase]
          have hprev := hr.fresh hphase i hi j hj
          exact ⟨@PortRun.Inv.result n r i ⟨j, result, rttUs, body⟩ hr hphase hi hj,
            (@PortScan.Accounted.settles _ hr.accounted ⟨j, result, rttUs, body⟩
              (hr.prepared.job_mem hphase hj) hprev).keeps hprev⟩
      | _ => rw [hj] at h; cases h
    · exact absurd ((if_neg hi).symm.trans h) (Option.some_ne_none _).symm

section Start

variable (target : Addr) (parsed : List UInt16) (master : UInt64) (retries : Nat)

theorem distinctPorts_spec (seen ports : List UInt16) : (distinctPorts seen ports).Nodup ∧
    ∀ p, p ∈ distinctPorts seen ports ↔ p ∈ ports ∧ p ∉ seen := by
  induction ports generalizing seen with
  | nil => exact ⟨List.nodup_nil, by simp [distinctPorts]⟩
  | cons p ports ih =>
    by_cases hp : p ∈ seen
    · obtain ⟨hn, hmem⟩ := ih seen
      rw [distinctPorts, if_pos hp]
      refine ⟨hn, fun q => ?_⟩
      rw [hmem q, List.mem_cons]
      constructor
      · exact fun h => ⟨.inr h.1, h.2⟩
      · rintro ⟨rfl | hq, hs⟩
        · exact absurd hp hs
        · exact ⟨hq, hs⟩
    · obtain ⟨hn, hmem⟩ := ih (p :: seen)
      rw [distinctPorts, if_neg hp]
      refine ⟨List.nodup_cons.mpr ⟨?_, hn⟩, fun q => ?_⟩
      · exact fun h => ((hmem p).mp h).2 List.mem_cons_self
      · rw [List.mem_cons, List.mem_cons, hmem q, List.mem_cons]
        by_cases hq : q = p
        · simp [hq, hp]
        · simp [hq]

theorem portScanInit_ports_nodup : (portScanInit target parsed master retries).ports.Nodup :=
  (distinctPorts_spec [] parsed).1.map fun _ _ => UInt16.toNat_inj.mp

theorem portScanInit_ports_le : (portScanInit target parsed master retries).ports.length ≤ 2 ^ 64 := by
  have hlt : ∀ p ∈ (portScanInit target parsed master retries).ports, p ∈ List.range 65536 := by
    intro p hp
    obtain ⟨q, -, rfl⟩ := List.mem_map.mp hp
    exact List.mem_range.mpr q.toNat_lt
  have hle := (portScanInit_ports_nodup target parsed master retries).subperm hlt |>.length_le
  rw [List.length_range] at hle
  omega

theorem PortRun.Inv.start : PortRun.Inv (retries + 3) (PortRun.start (portScanInit target parsed master retries)) where
  accounted := by
    have hnone : ∀ st, st ≠ .unknown →
        marked (portScanInit target parsed master retries).ports (fun _ => PortState.unknown) st = [] := by
      intro st hst
      exact List.filter_eq_nil_iff.mpr fun _ _ => by simpa using hst.symm
    have hcount : ∀ st, st ≠ .unknown → (portScanInit target parsed master retries).count st = 0 := fun st hst =>
      congrArg List.length (hnone st hst)
    refine ⟨portScanInit_ports_nodup target parsed master retries, Nat.le_refl _, ?_, ?_, ?_, ?_, ?_, ?_⟩
    · exact (hcount .closed (by decide)).symm
    · exact (hcount .filtered (by decide)).symm
    · exact (hcount .unreachable (by decide)).symm
    · exact (hcount .reset (by decide)).symm
    · exact (hcount .localError (by decide)).symm
    · exact List.Perm.of_eq (hnone .opened (by decide)).symm
  prepared := ⟨⟨_, rfl⟩, portScanInit_ports_le target parsed master retries, List.nodup_nil,
    fun _ h => absurd h List.not_mem_nil, Int.le_refl _⟩
  pending_nodup := List.nodup_nil
  fresh _ _ h := absurd h List.not_mem_nil
  unstarted _ := ⟨rfl, rfl, fun _ => rfl⟩
  rounds h := absurd h (show PortPhase.sweep ≠ .banner by decide)
  told p := ⟨fun h => absurd h List.not_mem_nil, fun h => absurd h List.not_mem_nil⟩
  calls := by
    show 0 + (1 + (retries - 0) + 1 + 1) ≤ retries + 3
    omega

end Start

/-- The books of a port scan: the counters and the table agree with the states of the distinct ports, a port
once heard of as open or closed stays so, and the phases come to an end. -/
theorem port_scan_accounts (target : Addr) (parsed : List UInt16) (master : UInt64) (retries : Nat) (r : PortRun)
    (h : Transition.Reach PortRun.step (fun _ _ => True)
      (PortRun.start (portScanInit target parsed master retries)) r) :
    (r.scan.ports.Nodup ∧ ∀ p, p ∈ r.scan.ports ↔ ∃ q ∈ parsed, q.toNat = p) ∧
    (r.scan.refused = r.scan.count .closed ∧ r.scan.filtered = r.scan.count .filtered ∧
      r.scan.unreachable = r.scan.count .unreachable ∧ r.scan.reset = r.scan.count .reset ∧
      r.scan.localErrors = r.scan.count .localError ∧ r.scan.found.length = r.scan.count .opened) ∧
    (r.scan.openPorts.Nodup ∧ ∀ p, p ∈ r.scan.openPorts ↔ p ∈ r.scan.ports ∧ r.scan.pstate p = .opened) ∧
    (∀ p, ((p, .opened) ∈ r.observed → r.scan.pstate p = .opened) ∧
      ((p, .refused) ∈ r.observed → r.scan.pstate p = .closed)) ∧
    (∀ r', Transition.Reach PortRun.step (fun _ _ => True) r r' →
      ∀ p, r.scan.pstate p = .opened ∨ r.scan.pstate p = .closed → r'.scan.pstate p = r.scan.pstate p) ∧
    r.calls ≤ retries + 3 ∧
    (r.ended = false → r.calls < retries + 3 ∧ ∃ r', r.step .nextPhase = some r') := by
  have hinv : r.Inv (retries + 3) ∧ (portScanInit target parsed master retries).Keeps r.scan := by
    refine @Transition.Reach.invariant _ _ _ _ _
      (fun r => r.Inv (retries + 3) ∧ (portScanInit target parsed master retries).Keeps r.scan)
      ⟨PortRun.Inv.start target parsed master retries, PortScan.Keeps.refl _⟩ ?_ _ h
    intro s a s' hs _ hstep
    obtain ⟨hnext, hkeeps⟩ := hs.1.step hstep
    exact ⟨hnext, hs.2.trans hkeeps⟩
  obtain ⟨hinv, hkeeps⟩ := hinv
  have ha := hinv.accounted
  refine ⟨⟨ha.nodup, ?_⟩, ⟨ha.refused, ha.filtered, ha.unreachable, ha.reset, ha.localErrors, ?_⟩, ⟨?_, ?_⟩, hinv.told,
    ?_, ?_, ?_⟩
  · intro p
    rw [hkeeps.ports]
    show p ∈ (distinctPorts [] parsed).map UInt16.toNat ↔ _
    rw [List.mem_map]
    refine exists_congr fun q => and_congr_left fun _ => ?_
    rw [(distinctPorts_spec [] parsed).2 q]
    simp
  · rw [PortScan.count, tally, ← ha.table.length_eq, PortScan.openPorts, List.length_map]
  · exact ha.table.nodup_iff.mpr (nodup_marked ha.nodup)
  · intro p
    rw [ha.table.mem_iff, mem_marked]
  · intro r' hr'
    refine (@Transition.Reach.invariant _ _ _ _ _ (fun t => t.Inv (retries + 3) ∧ r.scan.Keeps t.scan)
      ⟨hinv, PortScan.Keeps.refl _⟩ ?_ _ hr').2.settled
    intro s a s' hs _ hstep
    obtain ⟨hnext, hmore⟩ := hs.1.step hstep
    exact ⟨hnext, hs.2.trans hmore⟩
  · have := hinv.calls
    omega
  · intro hended
    have hcalls := hinv.calls
    have hne : ¬r.ended := by rw [hended]; decide
    obtain ⟨s', more, hnext, -⟩ := portScanNextPhase_advances hinv.prepared.step_ge
    rw [PortRun.budget, if_neg hne] at hcalls
    have hstep : r.step .nextPhase = Option.map _ (portScanNextPhase r.scan) := if_neg hne
    rw [hstep, hnext]
    exact ⟨by omega, _, rfl⟩

theorem port_scan_accounts_sample : ∃ r,
    [PortAct.nextPhase, .event 0 .timeout 0 [], .nextPhase, .event 0 .opened 0 []].foldlM PortRun.step
      (PortRun.start (portScanInit (.v4 0) [80, 80] 7 1)) = some r ∧
    r.scan.openPorts = [80] ∧ r.scan.filtered = r.scan.count .filtered ∧ r.scan.pstate 80 = .opened := by
  have h := fun r hr => port_scan_accounts (.v4 0) [80, 80] 7 1 r
    (@Transition.Reach.actions _ _ _ _ _ [.nextPhase, .event 0 .timeout 0 [], .nextPhase, .event 0 .opened 0 []] _ _
      .refl (fun _ _ _ => trivial) hr)
  exact ⟨_, rfl, rfl, (h _ rfl).2.1.2.1, ((h _ rfl).2.2.2.1 80).1 (by decide)⟩

end Qanat
