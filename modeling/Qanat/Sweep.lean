import Qanat.BanditOnce
import Qanat.CidrSealedV4
import Qanat.ScanPlan
import Qanat.Task

namespace Qanat

/-- The fields of `cf_scan` that the sweep reads. -/
structure CfScan where
  set : CidrSet
  plan : ScanPlan
  bandit : Bandit
  uniform : Perm
  full : Bool

/-- How many draws of `cf_scan_init` are reserved for exploration. -/
def explorationOf (plan : ScanPlan) (blocks : Nat) : Nat :=
  match plan.selection with
  | .stratified => plan.plannedAddresses
  | .hybrid =>
    let part := plan.plannedAddresses % 100 * plan.explorePercent
    let exploration := plan.plannedAddresses / 100 * plan.explorePercent + part / 100 +
      if part % 100 ≠ 0 then 1 else 0
    let exploration :=
      if blocks ≤ plan.plannedAddresses ∧ exploration < blocks then blocks else exploration
    if plan.plannedAddresses < exploration then plan.plannedAddresses else exploration
  | _ => min plan.plannedAddresses blocks

/-- The scheduling part of `cf_scan_init`, on a sealed set and its resolved plan. -/
def cfScanInit (set : CidrSet) (plan : ScanPlan) (seed : UInt64) : Option CfScan :=
  if set.total = 0 then none
  else
    match banditInit set.total 256 2 (seedDerive seed 0x43462D42414E4449) with
    | none => none
    | some t =>
      match banditSetExploreTotal t (explorationOf plan t.n) with
      | none => none
      | some t => some ⟨set, plan, t, permInit set.total (seedDerive seed 0x43462D554E49464F), false⟩

/-- A call of `cf_next_sweep` between two of its atomic operations. -/
inductive SweepPc
  | start (idx : Nat)
  | draw (pc : DrawPc)
  | ret (r : TaskNext Job)

/-- From the pick of the scheduler to the answer. -/
def sweepPick (s : CfScan) (pick : Nat) : TaskNext Job :=
  match cidrSetNth s.set pick with
  | none => .fatal
  | some a => .job ⟨a, 443, .tcp, pick⟩

def afterDraw (s : CfScan) : DrawPc → SweepPc
  | .done none => .ret .exhausted
  | .done (some pick) => .ret (sweepPick s pick)
  | pc => .draw pc

/-- Whether `cf_next_sweep` bypasses the bandit. -/
def CfScan.permuted (s : CfScan) : Bool :=
  s.plan.exactFull || s.plan.selection == .uniform

def execSweep (s : CfScan) : SweepPc → Option (CfScan × SweepPc)
  | .start idx =>
    some (s,
      if s.full then .ret .stopCondition
      else if s.plan.plannedAddresses ≤ idx then .ret .exhausted
      else if s.permuted then .ret (sweepPick s (permApply s.uniform idx))
      else .draw (.start idx))
  | .draw pc =>
    match execDraw s.bandit pc with
    | none => none
    | some (t, pc') => some ({ s with bandit := t }, afterDraw s pc')
  | .ret _ => none

structure SweepState where
  scan : CfScan
  calls : List (Nat × SweepPc)

/-- Every index below the planned count is given to at most one call; `cf_on_sweep` may report at
any moment. -/
def sweepStep (c : SweepState) : DrawAct → Option SweepState
  | .call idx =>
    if idx < c.scan.plan.plannedAddresses ∧ idx ∉ c.calls.map Prod.fst then
      some { c with calls := c.calls ++ [(idx, .start idx)] }
    else none
  | .exec i =>
    match c.calls[i]? with
    | none => none
    | some (idx, pc) =>
      match execSweep c.scan pc with
      | none => none
      | some (s, pc') => some ⟨s, c.calls.set i (idx, pc')⟩
  | .report index good =>
    some { c with scan := { c.scan with bandit := banditReport c.scan.bandit index good } }

def SweepPc.returned : SweepPc → Bool
  | .ret _ => true
  | _ => false

def SweepPc.job : SweepPc → Option Job
  | .ret (.job j) => some j
  | _ => none

/-- The addresses produced so far, in the order of their calls. -/
def SweepState.produced (c : SweepState) : List Addr :=
  c.calls.filterMap fun x => x.2.job.map Job.addr

/-- No operation scores a block whose two counters are zero. -/
def SweepScored (c : SweepState) (a : DrawAct) : Prop :=
  ∀ i idx pc, a = .exec i → c.calls[i]? = some (idx, .draw pc) → ScoredPc c.scan.bandit pc

def SweepPc.drawing : SweepPc → Option DrawPc
  | .draw pc => some pc
  | _ => none

theorem sweepScored_exec (c : SweepState) (i : Nat) :
    SweepScored c (.exec i) ↔ ∀ pc ∈ (c.calls[i]?).bind (·.2.drawing), ScoredPc c.scan.bandit pc := by
  constructor
  · intro h pc hpc
    obtain ⟨⟨idx, x⟩, hx, hdraw⟩ := Option.bind_eq_some_iff.mp hpc
    cases x with
    | draw q =>
      obtain rfl := Option.some.inj hdraw
      exact h i idx q rfl hx
    | start _ => cases hdraw
    | ret _ => cases hdraw
  · intro h j idx pc hj hx
    obtain rfl := DrawAct.exec.inj hj
    exact h pc (Option.bind_eq_some_iff.mpr ⟨_, hx, rfl⟩)

instance (c : SweepState) : DecidablePred (SweepScored c)
  | .exec i => decidable_of_iff _ (sweepScored_exec c i).symm
  | .call _ => isTrue fun _ _ _ h _ => by cases h
  | .report _ _ => isTrue fun _ _ _ h _ => by cases h

/-- With a quota for every block, no block's quota is empty. -/
theorem blockQuota_pos {t : Bandit} (ht : t.Shaped) (hE : t.exploreTotal ≤ t.total)
    (hn : t.n ≤ t.exploreTotal) {k : Nat} (hk : k < t.n) : 1 ≤ blockQuota t k := by
  have hcap := ht.capacity_succ hk
  have hpos := ht.blockSpan_pos hk
  have hle := ht.le_capacity (k := k) (by omega)
  unfold blockQuota quotaPrefix
  rw [if_pos hn, if_pos hn]
  rcases Nat.eq_zero_or_pos (t.total - t.n) with h0 | h0
  · rw [h0, Nat.div_zero, Nat.div_zero]
    omega
  · have := (share_step (t.exploreTotal - t.n) _ h0 (by omega)
      (show blockCapacityPrefix t k - k ≤ blockCapacityPrefix t (k + 1) - (k + 1) by omega)).1
    omega

/-- Enough room for 32-bit block counters: the steps stay below `planned`, and when that is all of
IPv4 every block has addresses set aside for exploration. -/
structure Bandit.Roomy (t : Bandit) (planned : Nat) : Prop where
  explore_le : t.exploreTotal ≤ planned
  planned_le : planned ≤ 2 ^ 32
  many : planned = 2 ^ 32 → 2 ≤ t.n ∧ t.n ≤ t.exploreTotal

section Room

variable {t₀ : Bandit} (hr : t₀.Ready) {c : DrawState} {cl : Nat → Nat} (h : DrawInv t₀ c cl)
include hr h

/-- A call still undoing an increment has claimed nothing. -/
theorem taken_over_le (blk : Nat) {x : Nat × DrawPc} (hx : x ∈ c.calls) :
    takenBy t₀ x + overBy blk x ≤ if x.1 < t₀.exploreTotal then 0 else 1 := by
  have htaken := takenBy_le hr x
  obtain ⟨s, pc⟩ := x
  cases pc with
  | undo site b =>
    have hok := h.pcs _ hx
    have hlate := later_step hr hok.1
    have hzero : takenBy t₀ (s, .undo site b) = 0 := by simp [takenBy, DrawPc.held]
    have hone : overBy blk (s, .undo site b) ≤ 1 := by
      simp only [overBy]
      split <;> omega
    rw [if_neg (show ¬s < t₀.exploreTotal by omega)]
    omega
  | _ => exact htaken

theorem DrawInv.take_room_planned {planned : Nat} (hroomy : t₀.Roomy planned)
    (hsteps : ∀ x ∈ c.calls, x.1 < planned) {i s blk : Nat} {site : TakeSite}
    (hi : c.calls[i]? = some (s, .take site blk)) : (c.bandit.b blk).drawn.toNat + 1 < 2 ^ 32 := by
  obtain ⟨hs, hb, -⟩ := h.pcs _ (List.mem_of_getElem? hi)
  have hgap := ListSum.sum_map_gap (fun x hx => taken_over_le hr h blk hx) hi
  have hmine : takenBy t₀ (s, .take site blk) + overBy blk (s, .take site blk) = 0 := by
    simp [takenBy, overBy, DrawPc.held]
  have hlate := later_step hr hs
  rw [hmine, if_neg (show ¬s < t₀.exploreTotal by omega), List.sum_map_add] at hgap
  have hall : ∀ k ∈ c.calls.map Prod.fst, k < planned := by
    intro k hk
    obtain ⟨x, hx, rfl⟩ := List.mem_map.mp hk
    exact hsteps x hx
  have hbelow := nodup_sum_le h.steps t₀.exploreTotal hall
  rw [List.map_map] at hbelow
  change (c.calls.map fun x : Nat × DrawPc => if x.1 < t₀.exploreTotal then 0 else 1).sum ≤ _ at hbelow
  have hclaimed := h.sum_claimed hr
  rw [← Finset.add_sum_erase _ _ (Finset.mem_range.mpr hb)] at hclaimed
  have hdrawn := h.drawn blk hb
  have hE := hroomy.explore_le
  have hle := hroomy.planned_le
  rcases Nat.lt_or_eq_of_le hle with hlt | heq
  · omega
  · obtain ⟨htwo, hn⟩ := hroomy.many heq
    obtain ⟨b, hbn, hne⟩ : ∃ b < t₀.n, b ≠ blk := by
      rcases Nat.eq_zero_or_pos blk with h0 | h0
      · exact ⟨1, by omega, by omega⟩
      · exact ⟨0, by omega, by omega⟩
    have hother : cl b ≤ ∑ x ∈ (Finset.range t₀.n).erase blk, cl x :=
      Finset.single_le_sum (fun _ _ => Nat.zero_le _)
        (Finset.mem_erase.mpr ⟨hne, Finset.mem_range.mpr hbn⟩)
    have hquota := blockQuota_pos hr.shaped hr.explore_le hn hbn
    have hbound := (h.bounds b hbn).1
    omega

end Room

theorem explorationOf_le (plan : ScanPlan) (blocks : Nat) :
    explorationOf plan blocks ≤ plan.plannedAddresses := by
  unfold explorationOf
  split
  next => exact le_refl _
  next =>
    dsimp only
    generalize plan.plannedAddresses / 100 * _ + _ + _ = asked
    split <;> split <;> omega
  next => exact Nat.min_le_left _ _

theorem explorationOf_ge {plan : ScanPlan} {blocks : Nat} (h : blocks ≤ plan.plannedAddresses) :
    blocks ≤ explorationOf plan blocks := by
  unfold explorationOf
  split
  next => exact h
  next =>
    dsimp only
    generalize plan.plannedAddresses / 100 * _ + _ + _ = asked
    split <;> split <;> omega
  next => exact Nat.le_min.mpr ⟨h, le_refl _⟩

/-- What `cf_scan_init` hands to the workers. -/
structure SweepReady (set : CidrSet) (plan : ScanPlan) (s : CfScan) : Prop where
  set_eq : s.set = set
  plan_eq : s.plan = plan
  ready : s.bandit.Ready
  total : s.bandit.total = set.total
  roomy : s.bandit.Roomy plan.plannedAddresses
  uniform : ∃ seed, s.uniform = permInit set.total seed
  unraised : s.full = false

theorem cfScanInit_ready {set : CidrSet} {plan : ScanPlan} {seed : UInt64} {s : CfScan}
    (hset : set.total ≤ 2 ^ 32) (hplan : plan.Valid set.total)
    (h : cfScanInit set plan seed = some s) : SweepReady set plan s := by
  unfold cfScanInit at h
  split at h
  next => simp at h
  next =>
    split at h
    next => simp at h
    next t hinit =>
      have hr := banditInit_ready (by decide) (by omega) hinit
      have htotal := banditInit_total hinit
      have hle := explorationOf_le plan t.n
      have hplanned := hplan.planned_le
      have hfits : explorationOf plan t.n ≤ t.total := by omega
      obtain ⟨t', ht', hr', -, hE, htot, hn, -⟩ := banditSetExploreTotal_ready hr hfits
      rw [ht'] at h
      obtain rfl := Option.some.inj h
      refine ⟨rfl, rfl, hr', htot.trans htotal, ⟨?_, by omega, ?_⟩, ⟨_, rfl⟩, rfl⟩
      · rw [hE]
        exact hle
      · intro hall
        rw [hn, hE]
        have habove := hr.shaped.above
        have hspan := hr.shaped.span_lt
        have hblocks := hr.shaped.n_le
        refine ⟨?_, explorationOf_ge (Nat.le_trans hblocks (by rw [hall]; decide))⟩
        by_contra hone
        have hmul : t.n * t.span ≤ 1 * t.span := Nat.mul_le_mul_right _ (by omega)
        omega

end Qanat
