import Qanat.BanditOnce

namespace Qanat

open Transition

/-- The bandits `qn_bandit_next` may be called on: freshly made, with or without an exact
exploration total. -/
def banditFor (total span explore : Nat) (seed : UInt64) (exploreTotal : Option Nat) : Option Bandit :=
  match banditInit total span explore seed, exploreTotal with
  | none, _ => none
  | some t, none => some t
  | some t, some E => banditSetExploreTotal t E

theorem banditFor_ready {total span explore : Nat} {seed : UInt64} {E : Option Nat} {t₀ : Bandit}
    (htotal : total < 2 ^ 64) (hspan : span < 2 ^ 32)
    (h : banditFor total span explore seed E = some t₀) : t₀.Ready ∧ t₀.total = total := by
  unfold banditFor at h
  split at h
  next => simp at h
  next t hinit =>
    obtain rfl := Option.some.inj h
    exact ⟨banditInit_ready hspan htotal hinit, banditInit_total hinit⟩
  next t E hinit =>
    have hready := banditInit_ready hspan htotal hinit
    by_cases hE : E ≤ t.total
    · obtain ⟨t', ht', hready', -, -, htot, -⟩ := banditSetExploreTotal_ready hready hE
      rw [ht'] at h
      obtain rfl := Option.some.inj h
      exact ⟨hready', htot.trans (banditInit_total hinit)⟩
    · simp [banditSetExploreTotal, Nat.lt_of_not_le hE] at h

theorem DrawInv.results_perm {t₀ : Bandit} (hr : t₀.Ready) {c : DrawState} {cl : Nat → Nat}
    (h : DrawInv t₀ c cl) (hlen : c.calls.length = t₀.total)
    (hall : ∀ x ∈ c.calls, x.2.returned = true) : c.results.Perm (List.range t₀.total) := by
  have hmem : ∀ v ∈ c.results, v ∈ List.range t₀.total := by
    intro v hv
    obtain ⟨x, hx, hxv⟩ := List.mem_filterMap.mp hv
    obtain ⟨w, hw, hdone⟩ := h.returned hr hx (hall x hx)
    simp [hdone, DrawPc.held, DrawPc.returned] at hxv
    exact List.mem_range.mpr (hxv ▸ hw)
  have hlength : c.results.length = t₀.total := by
    unfold DrawState.results
    rw [List.length_filterMap_eq_countP, ← hlen, List.countP_eq_length]
    intro x hx
    obtain ⟨w, -, hdone⟩ := h.returned hr hx (hall x hx)
    simp [hdone, DrawPc.held, DrawPc.returned]
  refine (List.subperm_of_subset h.results_nodup hmem).perm_of_length_le ?_
  rw [hlength, List.length_range]

/-- Draws are without replacement, in every run that scores no block whose two counters are zero. -/
theorem banditNext_without_replacement {total span explore : Nat} {seed : UInt64} {E : Option Nat}
    {t₀ : Bandit} (htotal : total < 2 ^ 64) (hspan : span < 2 ^ 32)
    (hinit : banditFor total span explore seed E = some t₀) {acts : List DrawAct} {c : DrawState}
    (hrun : Run drawStep drawGuard ⟨t₀, []⟩ acts c) :
    (∀ i x, c.calls[i]? = some x → x.2.returned = false → ∃ c', drawStep c (.exec i) = some c') ∧
    (∀ i, acts.count (.exec i) ≤ drawOps t₀) ∧
    (∀ x ∈ c.calls, x.2.returned = true → ∃ v < total, x.2 = .done (some v)) ∧
    c.results.Nodup ∧
    (c.calls.length = total → (∀ x ∈ c.calls, x.2.returned = true) →
      c.results.Perm (List.range total)) := by
  obtain ⟨hr, rfl⟩ := banditFor_ready htotal hspan hinit
  have h := drawRunInv_run hr hrun
  obtain ⟨cl, hinv⟩ := h.inv
  refine ⟨?_, h.ops.count_le, fun x hx hret => hinv.returned hr hx hret, hinv.results_nodup,
    hinv.results_perm hr⟩
  intro i x hi hret
  obtain ⟨t', pc', hexec⟩ := execDraw_some c.bandit hret (hinv.no_fault (List.mem_of_getElem? hi))
  refine ⟨⟨t', c.calls.set i (x.1, pc')⟩, ?_⟩
  simp [drawStep, hi, hexec]

theorem exec_alone {t t' : Bandit} {s : Nat} {pc pc' : DrawPc} (h : execDraw t pc = some (t', pc')) :
    drawStep ⟨t, [(s, pc)]⟩ (.exec 0) = some ⟨t', [(s, pc')]⟩ := by
  simp [drawStep, h]

/-- Three calls on two blocks: the call with step 2 scores while the others draw, reports come in between, and
the index it settles on is taken before it gets there, so that it scores again. -/
def contendedActs : List DrawAct :=
  [[.call 0, .call 2, .exec 0, .exec 1, .exec 1, .exec 1, .exec 1, .report 2 true, .exec 0],
    List.replicate 143 (.exec 1), [.call 1, .exec 2, .report 2 false, .exec 0, .exec 2, .exec 2],
    List.replicate 90 (.exec 1)].flatten

theorem banditNext_contended : ∃ (t₀ : Bandit) (c : DrawState), banditFor 3 2 1 7 none = some t₀ ∧
    Run drawStep drawGuard ⟨t₀, []⟩ contendedActs c ∧ c.results.Perm (List.range 3) := by
  obtain ⟨t, hinit⟩ : ∃ t, banditFor 3 2 1 7 none = some t := ⟨_, rfl⟩
  have hacts : ((banditFor 3 2 1 7 none).bind fun t => contendedActs.foldlM (guarded drawStep drawGuard) ⟨t, []⟩).map
      (fun c => (c.calls.length, c.calls.all fun x => x.2.returned)) = some (3, true) := by decide +kernel
  rw [hinit, Option.bind_some] at hacts
  obtain ⟨c, hc, hend⟩ := Option.map_eq_some_iff.mp hacts
  obtain ⟨hlength, hall⟩ := Prod.mk.inj hend
  have hrun : Run drawStep drawGuard ⟨t, []⟩ contendedActs c := Run.nil.decided hc
  exact ⟨t, c, hinit, hrun, (banditNext_without_replacement (by decide) (by decide) hinit hrun).2.2.2.2 hlength
    (List.all_eq_true.mp hall)⟩

theorem banditReport_zero {t : Bandit} (hn : 0 < t.n) (htotal : 0 < t.total) (good : Bool) :
    (banditReport t 0 good).b 0 =
      ⟨(t.b 0).alpha + (if good then 1 else 0), (t.b 0).beta + (if good then 0 else 1), (t.b 0).drawn⟩ := by
  have hn' : t.n ≠ 0 := by omega
  have ht' : t.total ≠ 0 := by omega
  cases good <;> simp [banditReport, hn', ht']

/-- What `k` reports about index zero do to the bandit. -/
theorem reports_zero {t : Bandit} (hn : 0 < t.n) (htotal : 0 < t.total) (good : Bool) (k : Nat) :
    let t' := (banditReport · 0 good)^[k] t
    t.Same t' ∧ t'.issued = t.issued ∧
      t'.b 0 = ⟨(t.b 0).alpha + (if good then UInt32.ofNat k else 0),
        (t.b 0).beta + (if good then 0 else UInt32.ofNat k), (t.b 0).drawn⟩ := by
  induction k with
  | zero => exact ⟨rfl, rfl, by cases good <;> simp⟩
  | succ k ih =>
    obtain ⟨hsame, hissued, hb⟩ := ih
    simp only [Function.iterate_succ_apply']
    refine ⟨hsame.report 0 good, (report_issued _ 0 good).trans hissued, ?_⟩
    rw [banditReport_zero (by rw [hsame.n_eq]; exact hn) (by rw [hsame.total_eq]; exact htotal), hb]
    cases good <;> simp [UInt32.add_assoc, UInt32.ofNat_add]

/-- The bandit after `k` good and `k` bad reports about index zero. -/
def reportedBoth (k : Nat) (t : Bandit) : Bandit :=
  (banditReport · 0 false)^[k] ((banditReport · 0 true)^[k] t)

theorem reportedBoth_spec {t : Bandit} {k : Nat} (hn : 0 < t.n) (htotal : 0 < t.total)
    (hfresh : (t.b 0).alpha = 1 ∧ (t.b 0).beta = 1) (hk : 1 + UInt32.ofNat k = 0) :
    reportedBoth k t = { t with b := (reportedBoth k t).b } ∧
      (reportedBoth k t).b 0 = ⟨0, 0, (t.b 0).drawn⟩ := by
  obtain ⟨hs₁, hi₁, hb₁⟩ := reports_zero hn htotal true k
  obtain ⟨hs₂, hi₂, hb₂⟩ := reports_zero (t := (banditReport · 0 true)^[k] t)
    (by rw [hs₁.n_eq]; exact hn) (by rw [hs₁.total_eq]; exact htotal) false k
  constructor
  · have hissued : (reportedBoth k t).issued = t.issued := hi₂.trans hi₁
    change ((banditReport · 0 true)^[k] t).Same (reportedBoth k t) at hs₂
    unfold Bandit.Same at hs₁ hs₂
    rw [hs₁, hissued] at hs₂
    exact hs₂
  · unfold reportedBoth
    simp only [hb₂, hb₁, hfresh, if_true, hk, Bool.false_eq_true, if_false, UInt32.add_zero]

/-- Operations of one call that leave the bandit alone and do not return. -/
def QuietStep (t : Bandit) (p q : DrawPc) : Prop :=
  execDraw t p = some (t, q) ∧ q.returned = false

/-- With a single block, and its two counters at zero, a call that scores divides by zero. -/
theorem attempt_faults {t : Bandit} (hn : t.n = 1) (hprobe : t.probe = 48)
    (hroom : ¬blockSpan t 0 ≤ (t.b 0).drawn.toNat) (hzero : (t.b 0).alpha = 0 ∧ (t.b 0).beta = 0)
    (rng : UInt64) : Relation.ReflTransGen (QuietStep t) (.attempt 0 rng) .fault := by
  have h₁ : QuietStep t (.attempt 0 rng) (.loop 0 0 rng 0 noScore) := ⟨rfl, rfl⟩
  have h₂ : QuietStep t (.loop 0 0 rng 0 noScore) (.alpha 0 0 (mix64 rng) 0 0 noScore) := by
    refine ⟨?_, rfl⟩
    simp only [execDraw, hprobe, hn, Nat.mod_one, if_neg hroom, if_pos (show 0 < 48 by decide)]
  have h₃ : QuietStep t (.alpha 0 0 (mix64 rng) 0 0 noScore) (.beta 0 0 (mix64 rng) 0 0 0 noScore) := by
    refine ⟨?_, rfl⟩
    simp only [execDraw, hzero]
  have h₄ : QuietStep t (.beta 0 0 (mix64 rng) 0 0 0 noScore) .fault := by
    refine ⟨?_, rfl⟩
    simp only [execDraw, hzero]
    rfl
  exact .tail (.tail (.tail (.tail .refl h₁) h₂) h₃) h₄

/-- Enough reports take both counters of a block round to zero, and the next call that scores the
block divides by zero. -/
theorem banditNext_fault : ∃ (t₀ : Bandit) (c : DrawState), banditFor 2 2 1 0 none = some t₀ ∧
    Reach drawStep CallersFew ⟨t₀, []⟩ c ∧ c.calls = [(1, .fault)] := by
  obtain ⟨t₀, hinit⟩ : ∃ t₀, banditFor 2 2 1 0 none = some t₀ := ⟨_, rfl⟩
  have ht₀ := Option.some.inj hinit
  obtain ⟨k, hk⟩ : ∃ k, (1 : UInt32) + UInt32.ofNat k = 0 := ⟨2 ^ 32 - 1, by decide⟩
  obtain ⟨hsame, hzero⟩ := reportedBoth_spec (t := t₀) (by subst ht₀; decide) (by subst ht₀; decide)
    (by subst ht₀; exact ⟨rfl, rfl⟩) hk
  obtain ⟨hn, htotal, hspan, hprobe, hexact, hexplore, hissued⟩ : (reportedBoth k t₀).n = 1 ∧
      (reportedBoth k t₀).total = 2 ∧ (reportedBoth k t₀).span = 2 ∧ (reportedBoth k t₀).probe = 48 ∧
      (reportedBoth k t₀).exactExplore = false ∧ (reportedBoth k t₀).explore = 1 ∧ (reportedBoth k t₀).issued = 0 := by
    rw [hsame]
    subst ht₀
    exact ⟨rfl, rfl, rfl, rfl, rfl, rfl, rfl⟩
  have hreports (good : Bool) (t : Bandit) : CallersFew ⟨t, []⟩ (.report 0 good) := fun _ h => by simp at h
  have hwrap : Reach drawStep CallersFew ⟨t₀, []⟩ ⟨reportedBoth k t₀, []⟩ :=
    Reach.iterate (f := fun t => DrawState.mk t []) (hreports false) (fun _ => rfl)
      (Reach.iterate (f := fun t => DrawState.mk t []) (hreports true) (fun _ => rfl) Reach.refl k) k
  have hcall : Reach drawStep CallersFew ⟨t₀, []⟩ ⟨reportedBoth k t₀, [(1, .start 1)]⟩ := by
    refine hwrap.tail (a := .call 1) (fun _ _ => ?_) (by simp [drawStep, htotal])
    change 0 + 1 < 2 ^ 32 - (reportedBoth k t₀).span
    rw [hspan]
    decide
  obtain ⟨rng, hstart⟩ : ∃ rng, drawStart (reportedBoth k t₀) 1 = .attempt 0 rng := by
    simp [drawStart, htotal, hissued, hexact, hn, hexplore]
  have hroom : ¬blockSpan (reportedBoth k t₀) 0 ≤ ((reportedBoth k t₀).b 0).drawn.toNat := by
    have hfresh : (t₀.b 0).drawn = 0 := by subst ht₀; rfl
    simp [hzero, hfresh, blockSpan, htotal, hspan]
  have hfault := attempt_faults hn hprobe hroom (by rw [hzero]; exact ⟨rfl, rfl⟩) rng
  have hquiet {p q : DrawPc} (hp : Reach drawStep CallersFew ⟨t₀, []⟩ ⟨reportedBoth k t₀, [(1, p)]⟩)
      (hpq : execDraw (reportedBoth k t₀) p = some (reportedBoth k t₀, q)) :
      Reach drawStep CallersFew ⟨t₀, []⟩ ⟨reportedBoth k t₀, [(1, q)]⟩ :=
    hp.tail (fun _ h => by simp at h) (exec_alone hpq)
  have hattempt : Reach drawStep CallersFew ⟨t₀, []⟩ ⟨reportedBoth k t₀, [(1, .attempt 0 rng)]⟩ :=
    hquiet hcall (by simp only [execDraw, hstart])
  have hend : ∀ q, Relation.ReflTransGen (QuietStep (reportedBoth k t₀)) (.attempt 0 rng) q →
      Reach drawStep CallersFew ⟨t₀, []⟩ ⟨reportedBoth k t₀, [(1, q)]⟩ := by
    intro q hq
    induction hq with
    | refl => exact hattempt
    | tail _ hpq ih => exact hquiet ih hpq.1
  exact ⟨t₀, _, hinit, hend _ hfault, rfl⟩

end Qanat
