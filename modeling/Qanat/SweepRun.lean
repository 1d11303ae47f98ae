import Qanat.Sweep

namespace Qanat

open Transition

/-- The draw a sweep call is making, as the bandit sees it. -/
def SweepPc.toDraw : SweepPc → DrawPc
  | .start idx => .start idx
  | .draw pc => pc
  | .ret (.job j) => .done (some j.token)
  | .ret _ => .done none

/-- The bandit of a sweep with the draws of its calls. -/
def SweepState.draws (c : SweepState) : DrawState :=
  ⟨c.scan.bandit, c.calls.map fun x => (x.1, x.2.toDraw)⟩

/-- A returned call carries a job whose address is the one its token stands for. -/
def Answered (set : CidrSet) (pc : SweepPc) : Prop :=
  ∀ r, pc = .ret r → ∃ j, r = .job j ∧ cidrSetNth set j.token = some j.addr

/-- The invariant of a sweep that draws from the bandit. -/
structure DrawnInv (s₀ : CfScan) (c : SweepState) : Prop where
  frame : c.scan = { s₀ with bandit := c.scan.bandit }
  planned : ∀ x ∈ c.calls, x.1 < s₀.plan.plannedAddresses
  draws : ∃ cl, DrawInv s₀.bandit c.draws cl
  answered : ∀ x ∈ c.calls, Answered s₀.set x.2
  going : ∀ x ∈ c.calls, ∀ pc, x.2 = .draw pc → pc.returned = false

theorem draws_get {c : SweepState} {i idx : Nat} {pc : SweepPc} (hi : c.calls[i]? = some (idx, pc)) :
    c.draws.calls[i]? = some (idx, pc.toDraw) := by
  simp [SweepState.draws, hi]

theorem draws_set (c : SweepState) (s : CfScan) (i idx : Nat) (pc : SweepPc) :
    (⟨s, c.calls.set i (idx, pc)⟩ : SweepState).draws = ⟨s.bandit, c.draws.calls.set i (idx, pc.toDraw)⟩ := by
  simp [SweepState.draws, List.map_set]

theorem mem_set_cases {β : Type} {l : List β} {i : Nat} {b : β} {P : β → Prop} (hl : ∀ x ∈ l, P x)
    (hb : P b) : ∀ x ∈ l.set i b, P x := by
  intro x hx
  rcases List.mem_or_eq_of_mem_set hx with hx | rfl
  · exact hl x hx
  · exact hb

theorem mem_append_one_cases {β : Type} {l : List β} {b : β} {P : β → Prop} (hl : ∀ x ∈ l, P x)
    (hb : P b) : ∀ x ∈ l ++ [b], P x := by
  intro x hx
  rcases List.mem_append.mp hx with hx | hx
  · exact hl x hx
  · rw [List.mem_singleton.mp hx]
    exact hb

theorem sweepPick_some {s : CfScan} (hs : s.set.SealedV4) {pick : Nat} (hp : pick < s.set.total) :
    ∃ a, cidrSetNth s.set pick = some a ∧ sweepPick s pick = .job ⟨a, 443, .tcp, pick⟩ := by
  have hlen : pick < s.set.addrs.length := by rw [hs.sealed.length_addrs]; exact hp
  have hnth : cidrSetNth s.set pick = some (s.set.addrs[pick]) := by
    rw [hs.sealed.nth_eq]
    exact List.getElem?_eq_getElem hlen
  refine ⟨_, hnth, ?_⟩
  unfold sweepPick
  rw [hnth]

section Drawn

variable {set : CidrSet} {plan : ScanPlan} {s₀ : CfScan} (hset : set.SealedV4)
  (hr : SweepReady set plan s₀) (hperm : s₀.permuted = false)
include hset hr

theorem drawnInv_draw {c : SweepState} (h : DrawnInv s₀ c) {i idx : Nat} {pc pc' : DrawPc} {t : Bandit}
    (hi : c.calls[i]? = some (idx, .draw pc)) (hscore : ScoredPc c.scan.bandit pc)
    (hexec : execDraw c.scan.bandit pc = some (t, pc')) :
    DrawnInv s₀ ⟨{ c.scan with bandit := t }, c.calls.set i (idx, afterDraw c.scan pc')⟩ := by
  obtain ⟨cl, hinv⟩ := h.draws
  have hdi := draws_get hi
  have hsteps : ∀ x ∈ c.draws.calls, x.1 < plan.plannedAddresses := by
    intro x hx
    obtain ⟨y, hy, rfl⟩ := List.mem_map.mp hx
    rw [← hr.plan_eq]
    exact h.planned y hy
  have hroom : ∀ site blk, pc = .take site blk → (c.draws.bandit.b blk).drawn.toNat + 1 < 2 ^ 32 := by
    rintro site blk rfl
    exact hinv.take_room_planned hr.ready hr.roomy hsteps hdi
  obtain ⟨cl', hinv'⟩ := drawInv_exec hr.ready hinv hdi hroom hscore hexec
  have hsetc : c.scan.set = s₀.set := by rw [h.frame]
  have hset₀ : c.scan.set.SealedV4 := by rw [hsetc, hr.set_eq]; exact hset
  have hlen : i < c.draws.calls.length := (List.getElem?_eq_some_iff.mp hdi).1
  have hmem : (idx, pc') ∈ c.draws.calls.set i (idx, pc') := List.mem_set hlen _
  have hnew : (afterDraw c.scan pc').toDraw = pc' ∧ Answered s₀.set (afterDraw c.scan pc') ∧
      ∀ q, afterDraw c.scan pc' = .draw q → q.returned = false := by
    have hok := hinv'.pcs _ hmem
    cases pc' with
    | done result =>
      cases result with
      | none => exact hok.elim
      | some pick =>
        obtain ⟨v, hv, heq⟩ := hinv'.returned hr.ready hmem rfl
        obtain rfl := Option.some.inj (DrawPc.done.inj heq)
        rw [hr.total, ← hr.set_eq, ← hsetc] at hv
        obtain ⟨a, hnth, hjob⟩ := sweepPick_some hset₀ hv
        simp only [afterDraw, hjob]
        refine ⟨rfl, ?_, by simp⟩
        rintro r hr'
        obtain rfl := SweepPc.ret.inj hr'
        exact ⟨_, rfl, by rw [← hsetc]; exact hnth⟩
    | _ => exact ⟨rfl, fun r hr' => by simp [afterDraw] at hr', fun q hq => by cases hq; rfl⟩
  have hidx : idx < s₀.plan.plannedAddresses := h.planned _ (List.mem_of_getElem? hi)
  refine ⟨?_, mem_set_cases h.planned hidx, ⟨cl', ?_⟩, mem_set_cases h.answered hnew.2.1,
    mem_set_cases h.going hnew.2.2⟩
  · rw [h.frame]
  · rw [draws_set, hnew.1]
    exact hinv'

include hperm

/-- One action keeps the invariant of a drawn sweep. -/
theorem drawnInv_step {c c' : SweepState} {a : DrawAct} (hvalid : plan.plannedAddresses ≤ set.total)
    (h : DrawnInv s₀ c) (hg : SweepScored c a) (hstep : sweepStep c a = some c') : DrawnInv s₀ c' := by
  have hplan : c.scan.plan = s₀.plan := by rw [h.frame]
  obtain ⟨cl, hinv⟩ := h.draws
  cases a with
  | call idx =>
    simp only [sweepStep] at hstep
    split at hstep
    next hcond =>
      obtain rfl := Option.some.inj hstep
      rw [hplan] at hcond
      have hfresh : idx ∉ c.draws.calls.map Prod.fst := by
        simpa [SweepState.draws, Function.comp_def] using hcond.2
      have htotal : idx < s₀.bandit.total := by
        rw [hr.total]
        have := hcond.1
        rw [hr.plan_eq] at this
        omega
      refine ⟨h.frame, mem_append_one_cases h.planned hcond.1, ⟨cl, ?_⟩,
        mem_append_one_cases h.answered (by simp [Answered]), mem_append_one_cases h.going (by simp)⟩
      have := drawInv_call hinv htotal hfresh
      simpa [SweepState.draws, SweepPc.toDraw] using this
    next => simp at hstep
  | exec i =>
    simp only [sweepStep] at hstep
    split at hstep
    next => simp at hstep
    next idx pc hi =>
      have hidx := h.planned _ (List.mem_of_getElem? hi)
      split at hstep
      next => simp at hstep
      next s pc' hexec =>
        obtain rfl := Option.some.inj hstep
        cases pc with
        | start k =>
          have hk : k = idx := hinv.pcs _ (List.mem_of_getElem? (draws_get hi))
          subst hk
          obtain ⟨rfl, hpc⟩ := Prod.mk.inj (Option.some.inj hexec)
          have hfull : c.scan.full = false := by rw [h.frame]; exact hr.unraised
          have hper : c.scan.permuted = false := by
            rw [h.frame]
            exact hperm
          rw [hfull, hper, hplan, if_neg (by simp), if_neg (by dsimp only at hidx; omega),
            if_neg (by simp)] at hpc
          subst hpc
          refine ⟨h.frame, mem_set_cases h.planned hidx, ⟨cl, ?_⟩,
            mem_set_cases h.answered (by simp [Answered]), mem_set_cases h.going ?_⟩
          · have hsame := ListSum.map_set_of_eq (fun x : Nat × SweepPc => (x.1, x.2.toDraw))
              (b := (k, .draw (.start k))) hi rfl
            unfold SweepState.draws
            rw [hsame]
            exact hinv
          · intro q hq
            obtain rfl := SweepPc.draw.inj hq
            rfl
        | draw pc =>
          simp only [execSweep] at hexec
          split at hexec
          next => simp at hexec
          next t q hdraw =>
            obtain ⟨rfl, rfl⟩ := Prod.mk.inj (Option.some.inj hexec)
            exact drawnInv_draw hset hr h hi (hg i idx pc rfl hi) hdraw
        | ret r => simp [execSweep] at hexec
  | report index good =>
    obtain rfl := Option.some.inj hstep
    refine ⟨?_, h.planned, ⟨cl, drawInv_report hinv index good⟩, h.answered, h.going⟩
    rw [h.frame]

omit hset hperm in
theorem drawnInv_init : DrawnInv s₀ ⟨s₀, []⟩ :=
  ⟨rfl, by simp, ⟨_, drawInv_init hr.ready⟩, by simp, by simp⟩

end Drawn

end Qanat
