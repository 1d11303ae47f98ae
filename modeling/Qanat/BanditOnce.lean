import Qanat.BanditExec
import Qanat.General.Allowance

namespace Qanat

/-- How many operations a call with `n` blocks and `p` probes can still perform. -/
def drawRank (n p : Nat) : DrawPc → Nat
  | .start _ => 4 * (3 * p + 4) + (3 * n + 2) + 4
  | .attempt k _ => (4 - k) * (3 * p + 4) + (3 * n + 2) + 1
  | .loop k i _ _ _ => (3 - k) * (3 * p + 4) + (3 * n + 2) + 1 + 3 * (p - i) + 3
  | .alpha k i _ _ _ _ => (3 - k) * (3 * p + 4) + (3 * n + 2) + 1 + 3 * (p - (i + 1)) + 5
  | .beta k i _ _ _ _ _ => (3 - k) * (3 * p + 4) + (3 * n + 2) + 1 + 3 * (p - (i + 1)) + 4
  | .linear blk => 3 * (n - blk) + 2
  | .take (.explore _) _ => 4 * (3 * p + 4) + (3 * n + 2) + 3
  | .undo (.explore _) _ => 4 * (3 * p + 4) + (3 * n + 2) + 2
  | .take (.exploit k _) _ => (3 - k) * (3 * p + 4) + (3 * n + 2) + 3
  | .undo (.exploit k _) _ => (3 - k) * (3 * p + 4) + (3 * n + 2) + 2
  | .take .linear blk => 3 * (n - (blk + 1)) + 4
  | .undo .linear blk => 3 * (n - (blk + 1)) + 3
  | .issue _ => 1
  | .done _ => 0
  | .fault => 0

theorem drawStart_rank (t : Bandit) (step : Nat) :
    drawRank t.n t.probe (drawStart t step) < drawRank t.n t.probe (.start step) := by
  unfold drawStart
  dsimp only
  split
  next => simp [drawRank]
  next =>
    split
    next => split <;> simp [drawRank]
    next => split <;> simp [drawRank]

theorem attempt_rank (n p k : Nat) (rng : UInt64) (hk : k < 4) :
    drawRank n p (.loop k 0 rng 0 noScore) < drawRank n p (.attempt k rng) := by
  have : 4 - k = (3 - k) + 1 := by omega
  simp only [drawRank, this, Nat.add_mul]
  omega

theorem afterFull_rank (n p : Nat) (site : TakeSite) (blk : Nat) :
    drawRank n p (afterFull site blk) < drawRank n p (.undo site blk) := by
  cases site with
  | explore => simp [afterFull, drawRank]
  | exploit k => simp [afterFull, drawRank, show 4 - (k + 1) = 3 - k by omega]
  | linear => simp [afterFull, drawRank]

/-- Every operation brings its call closer to its return. -/
theorem execDraw_rank {t t' : Bandit} {pc pc' : DrawPc} (h : execDraw t pc = some (t', pc')) :
    drawRank t.n t.probe pc' < drawRank t.n t.probe pc := by
  cases pc with
  | start step =>
    obtain ⟨-, rfl⟩ := Prod.mk.inj (Option.some.inj h)
    exact drawStart_rank t step
  | attempt k rng =>
    obtain ⟨-, rfl⟩ := Prod.mk.inj (Option.some.inj h)
    split
    next hk => exact attempt_rank _ _ k rng hk
    next => simp only [drawRank]; omega
  | loop k i rng best bestv =>
    simp only [execDraw] at h
    split at h
    next hi =>
      split at h <;> obtain ⟨-, rfl⟩ := Prod.mk.inj (Option.some.inj h) <;> simp only [drawRank] <;> omega
    next hi =>
      have : 4 - (k + 1) = 3 - k := by omega
      split at h <;> obtain ⟨-, rfl⟩ := Prod.mk.inj (Option.some.inj h) <;>
        simp only [drawRank, this] <;> omega
  | alpha =>
    obtain ⟨-, rfl⟩ := Prod.mk.inj (Option.some.inj h)
    simp [drawRank]
  | beta k i rng blk a best bestv =>
    simp only [execDraw] at h
    split at h
    next =>
      obtain ⟨-, rfl⟩ := Prod.mk.inj (Option.some.inj h)
      simp [drawRank]
    next =>
      obtain ⟨-, rfl⟩ := Prod.mk.inj (Option.some.inj h)
      split <;> simp [drawRank]
  | linear blk =>
    obtain ⟨-, rfl⟩ := Prod.mk.inj (Option.some.inj h)
    split <;> simp only [drawRank] <;> omega
  | take site blk =>
    simp only [execDraw] at h
    split at h <;> obtain ⟨-, rfl⟩ := Prod.mk.inj (Option.some.inj h) <;> cases site <;>
      simp only [drawRank] <;> omega
  | undo site blk =>
    obtain ⟨-, rfl⟩ := Prod.mk.inj (Option.some.inj h)
    exact afterFull_rank _ _ site blk
  | issue =>
    obtain ⟨-, rfl⟩ := Prod.mk.inj (Option.some.inj h)
    simp [drawRank]
  | done => simp [execDraw] at h
  | fault => simp [execDraw] at h

theorem execDraw_some (t : Bandit) {pc : DrawPc} (hret : pc.returned = false) (hpc : pc ≠ .fault) :
    ∃ t' pc', execDraw t pc = some (t', pc') := by
  cases pc with
  | loop =>
    simp only [execDraw]
    split <;> split <;> exact ⟨_, _, rfl⟩
  | beta =>
    simp only [execDraw]
    split <;> exact ⟨_, _, rfl⟩
  | take =>
    simp only [execDraw]
    split <;> exact ⟨_, _, rfl⟩
  | done => simp [DrawPc.returned] at hret
  | fault => exact absurd rfl hpc
  | _ => exact ⟨_, _, rfl⟩

theorem execDraw_same {t₀ t t' : Bandit} {pc pc' : DrawPc} (h : t₀.Same t)
    (hexec : execDraw t pc = some (t', pc')) : t₀.Same t' := by
  cases pc with
  | loop =>
    simp only [execDraw] at hexec
    split at hexec <;> split at hexec <;>
      (obtain ⟨rfl, -⟩ := Prod.mk.inj (Option.some.inj hexec); exact h)
  | beta =>
    simp only [execDraw] at hexec
    split at hexec <;> (obtain ⟨rfl, -⟩ := Prod.mk.inj (Option.some.inj hexec); exact h)
  | take =>
    simp only [execDraw] at hexec
    split at hexec <;>
      (obtain ⟨rfl, -⟩ := Prod.mk.inj (Option.some.inj hexec); exact h.setDrawn _ _)
  | undo =>
    obtain ⟨rfl, -⟩ := Prod.mk.inj (Option.some.inj hexec)
    exact h.setDrawn _ _
  | issue =>
    obtain ⟨rfl, -⟩ := Prod.mk.inj (Option.some.inj hexec)
    unfold Bandit.Same at h ⊢
    rw [h]
  | done => simp [execDraw] at hexec
  | fault => simp [execDraw] at hexec
  | _ =>
    obtain ⟨rfl, -⟩ := Prod.mk.inj (Option.some.inj hexec)
    exact h

section Step

theorem thompsonScore_none {a b : UInt32} {rng : UInt64} (h : thompsonScore a b rng = none) : a = 0 ∧ b = 0 := by
  unfold thompsonScore at h
  dsimp only at h
  split at h
  next hzero =>
    obtain ⟨ha, hb⟩ := Nat.add_eq_zero_iff.mp hzero
    exact ⟨UInt32.toNat_inj.mp ha, UInt32.toNat_inj.mp hb⟩
  next => cases h

variable {t₀ : Bandit} (hr : t₀.Ready) {c : DrawState} {cl : Nat → Nat} (h : DrawInv t₀ c cl)
include hr h

/-- One operation of any call keeps the invariant, given that a `take` cannot wrap its counter and
that the score is defined. -/
theorem drawInv_exec {i s : Nat} {pc pc' : DrawPc} {t' : Bandit} (hi : c.calls[i]? = some (s, pc))
    (hroom : ∀ site blk, pc = .take site blk → (c.bandit.b blk).drawn.toNat + 1 < 2 ^ 32)
    (hscore : ScoredPc c.bandit pc)
    (hexec : execDraw c.bandit pc = some (t', pc')) :
    ∃ cl', DrawInv t₀ ⟨t', c.calls.set i (s, pc')⟩ cl' := by
  have hok := h.pcs _ (List.mem_of_getElem? hi)
  have hn := hr.shaped.n_pos
  cases pc with
  | start step =>
    obtain ⟨rfl, rfl⟩ := Prod.mk.inj (Option.some.inj hexec)
    exact ⟨cl, drawInv_start hr h hi⟩
  | attempt k rng =>
    obtain ⟨rfl, rfl⟩ := Prod.mk.inj (Option.some.inj hexec)
    refine ⟨cl, ?_⟩
    split
    next => exact h.quiet hi ⟨hok, hn⟩ rfl rfl (fun _ => rfl) (fun _ => rfl) rfl rfl
    next =>
      refine h.quiet hi ⟨hok, ?_⟩ rfl rfl (fun _ => rfl) (fun _ => rfl) rfl rfl
      exact fun b hb => absurd hb (Nat.not_lt_zero b)
  | loop k j rng best bestv =>
    simp only [execDraw] at hexec
    refine ⟨cl, ?_⟩
    split at hexec
    next =>
      split at hexec
      next =>
        obtain ⟨rfl, rfl⟩ := Prod.mk.inj (Option.some.inj hexec)
        exact h.quiet hi hok rfl rfl (fun _ => rfl) (fun _ => rfl) rfl rfl
      next =>
        obtain ⟨rfl, rfl⟩ := Prod.mk.inj (Option.some.inj hexec)
        refine h.quiet hi ⟨hok.1, ?_, hok.2⟩ rfl rfl (fun _ => rfl) (fun _ => rfl) rfl rfl
        rw [h.same.n_eq]
        exact Nat.mod_lt _ hn
    next =>
      split at hexec
      next =>
        obtain ⟨rfl, rfl⟩ := Prod.mk.inj (Option.some.inj hexec)
        exact h.quiet hi ⟨hok.1, hok.2, trivial⟩ rfl rfl (fun _ => rfl) (fun _ => rfl) rfl rfl
      next =>
        obtain ⟨rfl, rfl⟩ := Prod.mk.inj (Option.some.inj hexec)
        exact h.quiet hi hok.1 rfl rfl (fun _ => rfl) (fun _ => rfl) rfl rfl
  | alpha =>
    obtain ⟨rfl, rfl⟩ := Prod.mk.inj (Option.some.inj hexec)
    exact ⟨cl, h.quiet hi hok rfl rfl (fun _ => rfl) (fun _ => rfl) rfl rfl⟩
  | beta k j rng blk a best bestv =>
    simp only [execDraw] at hexec
    refine ⟨cl, ?_⟩
    split at hexec
    next hnone =>
      exact absurd (thompsonScore_none hnone) hscore
    next =>
      obtain ⟨rfl, rfl⟩ := Prod.mk.inj (Option.some.inj hexec)
      split
      next => exact h.quiet hi ⟨hok.1, hok.2.1⟩ rfl rfl (fun _ => rfl) (fun _ => rfl) rfl rfl
      next => exact h.quiet hi ⟨hok.1, hok.2.2⟩ rfl rfl (fun _ => rfl) (fun _ => rfl) rfl rfl
  | linear blk =>
    obtain ⟨rfl, rfl⟩ := Prod.mk.inj (Option.some.inj hexec)
    exact ⟨cl, drawInv_linear hr h hi⟩
  | take site blk => exact drawInv_take hr h hi (hroom site blk rfl) hexec
  | undo site blk =>
    obtain ⟨rfl, rfl⟩ := Prod.mk.inj (Option.some.inj hexec)
    exact ⟨cl, drawInv_undo h hi⟩
  | issue index =>
    obtain ⟨rfl, rfl⟩ := Prod.mk.inj (Option.some.inj hexec)
    refine ⟨cl, h.update hi ?_ (fun _ _ => le_refl _) (fun b hb => (h.bounds b hb).2) (fun _ _ => rfl) hok
      (fun v hv => Or.inl hv) rfl rfl⟩
    have hsame := h.same
    unfold Bandit.Same at hsame ⊢
    rw [hsame]
  | done => simp [execDraw] at hexec
  | fault => simp [execDraw] at hexec

omit hr in
theorem drawInv_call {step : Nat} (hlt : step < t₀.total) (hnew : step ∉ c.calls.map Prod.fst) :
    DrawInv t₀ { c with calls := c.calls ++ [(step, .start step)] } cl := by
  refine ⟨h.same, h.bounds, ?_, ?_, ?_, ?_, ?_, ?_, ?_⟩
  · intro b hb
    rw [ListSum.sum_map_append_one]
    exact h.drawn b hb
  · rw [List.map_append]
    refine List.nodup_append.mpr ⟨h.steps, List.nodup_singleton _, ?_⟩
    rintro a ha b hb rfl
    rw [List.mem_singleton.mp hb] at ha
    exact hnew ha
  · intro x hx
    rcases List.mem_append.mp hx with hx | hx
    · exact h.step_lt x hx
    · rw [List.mem_singleton.mp hx]
      exact hlt
  · intro x hx
    rcases List.mem_append.mp hx with hx | hx
    · exact h.pcs x hx
    · rw [List.mem_singleton.mp hx]
      rfl
  · have hold {j : Nat} {y : Nat × DrawPc} {v : Nat} (hy : (c.calls ++ [(step, DrawPc.start step)])[j]? = some y)
        (hv : y.2.held = some v) : c.calls[j]? = some y := by
      rcases ListSum.getElem?_append_one_cases hy with hy | ⟨-, rfl⟩
      · exact hy
      · simp [DrawPc.held] at hv
    intro j k x y v hj hk hx hy
    exact h.distinct j k x y v (hold hj hx) (hold hk hy) hx hy
  · have hzero : takenBy t₀ (step, .start step) = 0 := by simp [takenBy, DrawPc.held]
    rw [ListSum.sum_map_append_one, hzero]
    exact h.taken
  · rw [ListSum.sum_map_append_one]
    exact h.issued

omit hr in
theorem drawInv_report (index : Nat) (good : Bool) :
    DrawInv t₀ { c with bandit := banditReport c.bandit index good } cl := by
  refine ⟨h.same.report index good, h.bounds, ?_, h.steps, h.step_lt, h.pcs, h.distinct, h.taken, ?_⟩
  · intro b hb
    rw [report_drawn]
    exact h.drawn b hb
  · rw [report_issued]
    exact h.issued

end Step

open Transition

/-- The condition every step of a run must meet. -/
def drawGuard (c : DrawState) (a : DrawAct) : Prop :=
  ScoreDefined c a ∧ CallersFew c a

instance (c : DrawState) (a : DrawAct) : Decidable (drawGuard c a) :=
  inferInstanceAs (Decidable (_ ∧ _))

/-- The indices returned so far, in the order of their calls. -/
def DrawState.results (c : DrawState) : List Nat :=
  c.calls.filterMap fun x => if x.2.returned then x.2.held else none

/-- No call performs more operations than this. -/
def drawOps (t : Bandit) : Nat :=
  drawRank t.n t.probe (.start 0)

/-- No call has spent more operations than its allowance. -/
def DrawsPaid (t₀ : Bandit) (acts : List DrawAct) (c : DrawState) : Prop :=
  Allowance.Paid (fun x : Nat × DrawPc => drawRank t₀.n t₀.probe x.2) (drawOps t₀) .exec acts c.calls

theorem overBy_le_active (b : Nat) (x : Nat × DrawPc) :
    overBy b x ≤ if x.2.returned then 0 else 1 := by
  obtain ⟨s, pc⟩ := x
  cases pc with
  | undo site blk =>
    simp only [overBy, DrawPc.returned]
    split <;> simp
  | _ => simp [overBy]

/-- With few callers the counter of a block cannot wrap. -/
theorem DrawInv.take_room {t₀ : Bandit} {c : DrawState} {cl : Nat → Nat} (h : DrawInv t₀ c cl)
    (hfew : c.active < 2 ^ 32 - t₀.span) {i s blk : Nat} {site : TakeSite}
    (hi : c.calls[i]? = some (s, .take site blk)) : (c.bandit.b blk).drawn.toNat + 1 < 2 ^ 32 := by
  obtain ⟨-, hb, -⟩ := h.pcs _ (List.mem_of_getElem? hi)
  have hgap := ListSum.sum_map_gap (fun x _ => overBy_le_active blk x) hi
  have hover : overBy blk (s, .take site blk) = 0 := rfl
  have hactive : (if (DrawPc.take site blk).returned then 0 else 1) = 1 := rfl
  rw [hover, hactive] at hgap
  change _ ≤ c.active + 0 at hgap
  have := h.drawn blk hb
  have := (h.bounds blk hb).2
  have := Bandit.Shaped.blockSpan_le (t := t₀) blk
  omega

theorem DrawInv.no_fault {t₀ : Bandit} {c : DrawState} {cl : Nat → Nat} (h : DrawInv t₀ c cl) {x : Nat × DrawPc}
    (hx : x ∈ c.calls) : x.2 ≠ .fault := by
  intro hf
  have := h.pcs x hx
  rw [hf] at this
  exact this

section Returned

variable {t₀ : Bandit} (hr : t₀.Ready)
include hr

theorem HeldBy.lt {cl : Nat → Nat} (hcl : ∀ b < t₀.n, cl b ≤ blockSpan t₀ b) {s v : Nat}
    (h : HeldBy t₀ cl s v) : v < t₀.total := by
  rcases h with ⟨hexp, hv⟩ | ⟨-, blk, k, hb, -, hk, rfl⟩
  · obtain ⟨seed, hseed⟩ := hr.exploreOrder hexp.1
    have hmap : permApply t₀.exploreOrder s < t₀.exploreTotal := by
      rw [hseed]
      exact permApply_lt seed (by have := hr.shaped.total_lt; have := hr.explore_le; omega) hexp.2
    obtain ⟨blk, k, hb, hk, -, hres⟩ := exactExploreNext_spec hr.shaped hr.explore_le hmap
    rw [hv] at hres
    rw [Option.some.inj hres]
    exact slotIndex_lt hr.shaped hb (Nat.lt_of_lt_of_le hk (blockQuota_le hr.shaped hr.explore_le hb))
  · exact slotIndex_lt hr.shaped hb (Nat.lt_of_lt_of_le hk (hcl blk hb))

/-- A call that has returned holds an index below the total. -/
theorem DrawInv.returned {c : DrawState} {cl : Nat → Nat} (h : DrawInv t₀ c cl) {x : Nat × DrawPc}
    (hx : x ∈ c.calls) (hret : x.2.returned = true) : ∃ v < t₀.total, x.2 = .done (some v) := by
  have hok := h.pcs x hx
  obtain ⟨s, pc⟩ := x
  cases pc with
  | done result =>
    cases result with
    | none => exact hok.elim
    | some v => exact ⟨v, HeldBy.lt hr (fun b hb => (h.bounds b hb).2) hok, rfl⟩
  | _ => simp [DrawPc.returned] at hret

end Returned

theorem DrawInv.results_nodup {t₀ : Bandit} {c : DrawState} {cl : Nat → Nat} (h : DrawInv t₀ c cl) :
    c.results.Nodup := by
  have hheld {x : Nat × DrawPc} {v : Nat} (hx : (if x.2.returned then x.2.held else none) = some v) :
      x.2.held = some v := by
    split at hx
    next => exact hx
    next => simp at hx
  exact ListSum.nodup_filterMap fun i j x y v hi hj hx hy => h.distinct i j x y v hi hj (hheld hx) (hheld hy)

/-- What every state of a run satisfies. -/
structure DrawRunInv (t₀ : Bandit) (acts : List DrawAct) (c : DrawState) : Prop where
  inv : ∃ cl, DrawInv t₀ c cl
  few : c.active < 2 ^ 32 - t₀.span
  ops : DrawsPaid t₀ acts c

theorem drawRunInv_step {t₀ : Bandit} (hr : t₀.Ready) {acts : List DrawAct} {a : DrawAct}
    {c c' : DrawState} (h : DrawRunInv t₀ acts c) (hg : drawGuard c a) (hstep : drawStep c a = some c') :
    DrawRunInv t₀ (acts ++ [a]) c' := by
  obtain ⟨cl, hinv⟩ := h.inv
  cases a with
  | call step =>
    simp only [drawStep] at hstep
    split at hstep
    next hcond =>
      obtain rfl := Option.some.inj hstep
      rw [hinv.same.total_eq] at hcond
      have hfew := hg.2 step rfl
      rw [hinv.same.span_eq] at hfew
      refine ⟨⟨cl, drawInv_call hinv hcond.1 hcond.2⟩, ?_, ?_⟩
      · unfold DrawState.active
        rw [ListSum.sum_map_append_one]
        exact hfew
      · exact Allowance.Paid.start h.ops (by simp) (le_refl _)
    next => simp at hstep
  | exec i =>
    simp only [drawStep] at hstep
    split at hstep
    next => simp at hstep
    next s pc hi =>
      split at hstep
      next => simp at hstep
      next t' pc' hexec =>
        obtain rfl := Option.some.inj hstep
        have hscore := hg.1 i (s, pc) rfl hi
        have hroom : ∀ site blk, pc = .take site blk → (c.bandit.b blk).drawn.toNat + 1 < 2 ^ 32 := by
          rintro site blk rfl
          exact hinv.take_room h.few hi
        refine ⟨drawInv_exec hr hinv hi hroom hscore hexec, ?_, ?_⟩
        · have hactive := ListSum.sum_map_set (fun x : Nat × DrawPc => if x.2.returned then 0 else 1)
            (s, pc') hi
          have hrun : pc.returned = false := by
            cases pc <;> first | rfl | simp [execDraw] at hexec
          have hone : (if pc.returned then 0 else 1) = 1 := by rw [hrun]; rfl
          have hle : (if pc'.returned then 0 else 1) ≤ 1 := by split <;> omega
          have := h.few
          unfold DrawState.active at this ⊢
          dsimp only at hactive ⊢
          omega
        · have hrank := execDraw_rank hexec
          have hprobe : c.bandit.probe = t₀.probe := by rw [hinv.same]
          rw [hinv.same.n_eq, hprobe] at hrank
          exact Allowance.Paid.move h.ops (fun _ _ => DrawAct.exec.inj) hi hrank
  | report index good =>
    obtain rfl := Option.some.inj hstep
    exact ⟨⟨cl, drawInv_report hinv index good⟩, h.few, Allowance.Paid.other h.ops (by simp)⟩

theorem drawRunInv_run {t₀ : Bandit} (hr : t₀.Ready) {acts : List DrawAct} {c : DrawState}
    (hrun : Run drawStep drawGuard ⟨t₀, []⟩ acts c) : DrawRunInv t₀ acts c := by
  induction hrun with
  | nil =>
    refine ⟨⟨_, drawInv_init hr⟩, ?_, Allowance.Paid.nil⟩
    have := hr.shaped.span_lt
    simp only [DrawState.active, List.map_nil, List.sum_nil]
    omega
  | snoc _ hg hstep ih => exact drawRunInv_step hr ih hg hstep

end Qanat
