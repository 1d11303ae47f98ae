import Qanat.BanditBlocks
import Qanat.General.ListSum
import Qanat.General.Transition
import Mathlib.Algebra.BigOperators.Group.Finset.Basic
import Mathlib.Algebra.BigOperators.Intervals

namespace Qanat

/-- Where `qn_bandit_next` calls `take` from, and so where a full block sends it. -/
inductive TakeSite
  | explore (rng : UInt64)
  | exploit (attempt : Nat) (rng : UInt64)
  | linear

/-- A call of `qn_bandit_next` between two of its atomic operations. `loop`, `attempt` and `linear`
are the heads of its loops, `undo` is a `take` that must give its increment back, and `fault` is
the division by zero in `thompson_score`. -/
inductive DrawPc
  | start (step : Nat)
  | attempt (k : Nat) (rng : UInt64)
  | loop (k i : Nat) (rng : UInt64) (best : Nat) (bestv : Int)
  | alpha (k i : Nat) (rng : UInt64) (blk best : Nat) (bestv : Int)
  | beta (k i : Nat) (rng : UInt64) (blk : Nat) (a : UInt32) (best : Nat) (bestv : Int)
  | linear (blk : Nat)
  | take (site : TakeSite) (blk : Nat)
  | undo (site : TakeSite) (blk : Nat)
  | issue (index : Nat)
  | done (result : Option Nat)
  | fault

def noScore : Int := -0x7FFFFFFF

/-- The check of `issued` and the choice between the three ways to draw. -/
def drawStart (t : Bandit) (step : Nat) : DrawPc :=
  let rng := mix64 (t.seed ^^^ (UInt64.ofNat step * 0x2545F4914F6CDD1D))
  if t.total ≤ t.issued then .done none
  else if t.exactExplore ∧ step < t.exploreTotal then
    match exactExploreNext t step with
    | none => .done none
    | some index => .issue index
  else if t.exactExplore = false ∧ step < t.n * t.explore then
    .take (.explore rng) (permApply t.blockOrder (step % t.n))
  else .attempt 0 rng

def afterFull (site : TakeSite) (blk : Nat) : DrawPc :=
  match site with
  | .explore rng => .attempt 0 rng
  | .exploit k rng => .attempt (k + 1) rng
  | .linear => .linear (blk + 1)

/-- One atomic operation of a call, with the local work up to the next one. -/
def execDraw (t : Bandit) : DrawPc → Option (Bandit × DrawPc)
  | .start step => some (t, drawStart t step)
  | .attempt k rng => some (t, if k < 4 then .loop k 0 rng 0 noScore else .linear 0)
  | .loop k i rng best bestv =>
    if i < t.probe then
      let rng := mix64 rng
      let blk := rng.toNat % t.n
      if blockSpan t blk ≤ (t.b blk).drawn.toNat then some (t, .loop k (i + 1) rng best bestv)
      else some (t, .alpha k i rng blk best bestv)
    else if noScore < bestv then some (t, .take (.exploit k rng) best)
    else some (t, .attempt (k + 1) rng)
  | .alpha k i rng blk best bestv => some (t, .beta k i rng blk (t.b blk).alpha best bestv)
  | .beta k i rng blk a best bestv =>
    match thompsonScore a (t.b blk).beta rng with
    | none => some (t, .fault)
    | some (v, rng) =>
      some (t, if bestv < v then .loop k (i + 1) rng blk v else .loop k (i + 1) rng best bestv)
  | .linear blk => some (t, if blk < t.n then .take .linear blk else .done none)
  | .take site blk =>
    let c := (t.b blk).drawn
    let t' := t.setDrawn blk (c + 1)
    if blockSpan t blk ≤ c.toNat then some (t', .undo site blk)
    else some (t', .issue (slotIndex t blk c.toNat))
  | .undo site blk => some (t.setDrawn blk ((t.b blk).drawn - 1), afterFull site blk)
  | .issue index => some ({ t with issued := t.issued + 1 }, .done (some index))
  | .done _ => none
  | .fault => none

def banditReport (t : Bandit) (index : Nat) (good : Bool) : Bandit :=
  if t.total ≤ index then t
  else
    let blk := index / t.span
    if t.n ≤ blk then t
    else
      let bump (x : Block) : Block :=
        if good then { x with alpha := x.alpha + 1 } else { x with beta := x.beta + 1 }
      { t with b := fun i => if i = blk then bump (t.b i) else t.b i }

/-- The shared bandit and every call made so far, each with its step. -/
structure DrawState where
  bandit : Bandit
  calls : List (Nat × DrawPc)

inductive DrawAct
  | call (step : Nat)
  | exec (i : Nat)
  | report (index : Nat) (good : Bool)
  deriving DecidableEq

/-- Calls take pairwise distinct steps below the total; a returned call does nothing more. -/
def drawStep (c : DrawState) : DrawAct → Option DrawState
  | .call step =>
    if step < c.bandit.total ∧ step ∉ c.calls.map Prod.fst then
      some { c with calls := c.calls ++ [(step, .start step)] }
    else none
  | .exec i =>
    match c.calls[i]? with
    | none => none
    | some (step, pc) =>
      match execDraw c.bandit pc with
      | none => none
      | some (t, pc') => some ⟨t, c.calls.set i (step, pc')⟩
  | .report index good => some { c with bandit := banditReport c.bandit index good }

/-- The index a call has been given, returned or not. -/
def DrawPc.held : DrawPc → Option Nat
  | .issue index => some index
  | .done result => result
  | _ => none

def DrawPc.returned : DrawPc → Bool
  | .done _ => true
  | _ => false

def DrawState.active (c : DrawState) : Nat :=
  (c.calls.map fun x => if x.2.returned then 0 else 1).sum

/-- The next operation of a call does not score a block whose two counters are zero. -/
def ScoredPc (t : Bandit) : DrawPc → Prop
  | .beta _ _ _ blk a _ _ => ¬(a = 0 ∧ (t.b blk).beta = 0)
  | _ => True

instance (t : Bandit) : DecidablePred (ScoredPc t)
  | .beta _ _ _ blk a _ _ => inferInstanceAs (Decidable ¬(a = 0 ∧ (t.b blk).beta = 0))
  | .start _ | .attempt _ _ | .loop _ _ _ _ _ | .alpha _ _ _ _ _ _ | .linear _ | .take _ _ | .undo _ _ | .issue _
  | .done _ | .fault => isTrue trivial

def ScoreDefined (c : DrawState) (a : DrawAct) : Prop :=
  ∀ i x, a = .exec i → c.calls[i]? = some x → ScoredPc c.bandit x.2

instance (c : DrawState) : DecidablePred (ScoreDefined c)
  | .exec i => decidable_of_iff (∀ x ∈ c.calls[i]?, ScoredPc c.bandit x.2)
      ⟨fun h _ x hj hx => h x (DrawAct.exec.inj hj ▸ hx), fun h x hx => h i x rfl hx⟩
  | .call _ => isTrue fun _ _ h _ => by cases h
  | .report _ _ => isTrue fun _ _ h _ => by cases h

/-- A call starts only while the calls under way, itself included, are fewer than `2^32 - span`. -/
def CallersFew (c : DrawState) (a : DrawAct) : Prop :=
  ∀ step, a = .call step → c.active + 1 < 2 ^ 32 - c.bandit.span

instance (c : DrawState) : DecidablePred (CallersFew c)
  | .call step => decidable_of_iff (c.active + 1 < 2 ^ 32 - c.bandit.span) ⟨fun h _ _ => h, fun h => h step rfl⟩
  | .exec _ => isTrue fun _ h => by cases h
  | .report _ _ => isTrue fun _ h => by cases h

/-- Draws change only the counters of a bandit. -/
def Bandit.Same (t₀ t : Bandit) : Prop :=
  t = { t₀ with b := t.b, issued := t.issued }

/-- The steps that exact exploration serves from the reserved quotas. -/
def ExploreStep (t : Bandit) (step : Nat) : Prop :=
  t.exactExplore = true ∧ step < t.exploreTotal

instance (t : Bandit) (step : Nat) : Decidable (ExploreStep t step) :=
  inferInstanceAs (Decidable (_ ∧ _))

/-- How a call came by an index, when `cl blk` offsets of each block have been claimed. -/
def HeldBy (t : Bandit) (cl : Nat → Nat) (step index : Nat) : Prop :=
  (ExploreStep t step ∧ exactExploreNext t step = some index) ∨
    ¬ExploreStep t step ∧ ∃ blk c, blk < t.n ∧ blockQuota t blk ≤ c ∧ c < cl blk ∧
      index = slotIndex t blk c

def FullBelow (t : Bandit) (cl : Nat → Nat) (k : Nat) : Prop :=
  ∀ b < k, b < t.n → cl b = blockSpan t b

/-- What is known of a call at each of its program points. -/
def PcOk (t : Bandit) (cl : Nat → Nat) (step : Nat) : DrawPc → Prop
  | .start s => s = step
  | .attempt _ _ => ¬ExploreStep t step
  | .loop _ _ _ best _ => ¬ExploreStep t step ∧ best < t.n
  | .alpha _ _ _ blk best _ => ¬ExploreStep t step ∧ blk < t.n ∧ best < t.n
  | .beta _ _ _ blk _ best _ => ¬ExploreStep t step ∧ blk < t.n ∧ best < t.n
  | .linear blk => ¬ExploreStep t step ∧ FullBelow t cl blk
  | .take site blk => ¬ExploreStep t step ∧ blk < t.n ∧
      match site with
      | .linear => FullBelow t cl blk
      | _ => True
  | .undo site blk => ¬ExploreStep t step ∧ blk < t.n ∧ cl blk = blockSpan t blk ∧
      match site with
      | .linear => FullBelow t cl blk
      | _ => True
  | .issue index => HeldBy t cl step index
  | .done (some index) => HeldBy t cl step index
  | .done none => False
  | .fault => False

def overBy (blk : Nat) (x : Nat × DrawPc) : Nat :=
  match x.2 with
  | .undo _ b => if b = blk then 1 else 0
  | _ => 0

def takenBy (t : Bandit) (x : Nat × DrawPc) : Nat :=
  if ExploreStep t x.1 then 0 else if x.2.held.isSome then 1 else 0

def returnedBy (x : Nat × DrawPc) : Nat :=
  if x.2.returned then 1 else 0

/-- The invariant of the draws. `cl blk` counts the offsets of a block that are gone for good,
reserved ones included; an increment still to be undone sits on a block that is full. -/
structure DrawInv (t₀ : Bandit) (c : DrawState) (cl : Nat → Nat) : Prop where
  same : t₀.Same c.bandit
  bounds : ∀ b < t₀.n, blockQuota t₀ b ≤ cl b ∧ cl b ≤ blockSpan t₀ b
  drawn : ∀ b < t₀.n, (c.bandit.b b).drawn.toNat = cl b + (c.calls.map (overBy b)).sum
  steps : (c.calls.map Prod.fst).Nodup
  step_lt : ∀ x ∈ c.calls, x.1 < t₀.total
  pcs : ∀ x ∈ c.calls, PcOk t₀ cl x.1 x.2
  distinct : ∀ (i j : Nat) (x y : Nat × DrawPc) (v : Nat), c.calls[i]? = some x →
    c.calls[j]? = some y → x.2.held = some v →
    y.2.held = some v → i = j
  taken : ∑ b ∈ Finset.range t₀.n, (cl b - blockQuota t₀ b) = (c.calls.map (takenBy t₀)).sum
  issued : c.bandit.issued = (c.calls.map returnedBy).sum

section Same

variable {t₀ t : Bandit} (h : t₀.Same t)
include h

theorem Bandit.Same.n_eq : t.n = t₀.n := by rw [h]
theorem Bandit.Same.total_eq : t.total = t₀.total := by rw [h]
theorem Bandit.Same.span_eq : t.span = t₀.span := by rw [h]
theorem Bandit.Same.blockSpan_eq (k : Nat) : blockSpan t k = blockSpan t₀ k := by rw [h]; rfl
theorem Bandit.Same.slotIndex_eq (k c : Nat) : slotIndex t k c = slotIndex t₀ k c := by rw [h]; rfl
theorem Bandit.Same.exact_eq (s : Nat) : exactExploreNext t s = exactExploreNext t₀ s := by rw [h]; rfl
theorem Bandit.Same.exploreStep_iff (s : Nat) : ExploreStep t s ↔ ExploreStep t₀ s := by rw [h]; rfl

theorem Bandit.Same.setDrawn (blk : Nat) (v : UInt32) : t₀.Same (t.setDrawn blk v) := by
  unfold Bandit.Same Bandit.setDrawn
  rw [h]

theorem Bandit.Same.report (index : Nat) (good : Bool) : t₀.Same (banditReport t index good) := by
  unfold banditReport
  split
  next => exact h
  next =>
    dsimp only
    split
    next => exact h
    next =>
      unfold Bandit.Same
      rw [h]

end Same

theorem report_drawn (t : Bandit) (index : Nat) (good : Bool) (k : Nat) :
    ((banditReport t index good).b k).drawn = (t.b k).drawn := by
  unfold banditReport
  split
  next => rfl
  next =>
    dsimp only
    split
    next => rfl
    next =>
      dsimp only
      split
      next => cases good <;> rfl
      next => rfl

theorem report_issued (t : Bandit) (index : Nat) (good : Bool) :
    (banditReport t index good).issued = t.issued := by
  unfold banditReport
  dsimp only
  split
  next => rfl
  next => split <;> rfl

theorem HeldBy.mono {t : Bandit} {cl cl' : Nat → Nat} (hle : ∀ b < t.n, cl b ≤ cl' b) {s v : Nat}
    (h : HeldBy t cl s v) : HeldBy t cl' s v := by
  rcases h with h | ⟨hs, blk, c, hb, hq, hc, hv⟩
  · exact Or.inl h
  · exact Or.inr ⟨hs, blk, c, hb, hq, Nat.lt_of_lt_of_le hc (hle blk hb), hv⟩

theorem FullBelow.mono {t : Bandit} {cl cl' : Nat → Nat} (hle : ∀ b < t.n, cl b ≤ cl' b)
    (hcap : ∀ b < t.n, cl' b ≤ blockSpan t b) {k : Nat} (h : FullBelow t cl k) : FullBelow t cl' k := by
  intro b hb hn
  have := h b hb hn
  have := hle b hn
  have := hcap b hn
  omega

/-- Claiming more offsets keeps every call's program point justified. -/
theorem PcOk.mono {t : Bandit} {cl cl' : Nat → Nat} (hle : ∀ b < t.n, cl b ≤ cl' b)
    (hcap : ∀ b < t.n, cl' b ≤ blockSpan t b) {s : Nat} {pc : DrawPc} (h : PcOk t cl s pc) :
    PcOk t cl' s pc := by
  cases pc with
  | start => exact h
  | attempt => exact h
  | loop => exact h
  | alpha => exact h
  | beta => exact h
  | linear => exact ⟨h.1, h.2.mono hle hcap⟩
  | take site blk =>
    refine ⟨h.1, h.2.1, ?_⟩
    cases site with
    | linear => exact FullBelow.mono hle hcap h.2.2
    | explore => trivial
    | exploit => trivial
  | undo site blk =>
    obtain ⟨hs, hb, hf, hl⟩ := h
    have := hle blk hb
    have := hcap blk hb
    refine ⟨hs, hb, by omega, ?_⟩
    cases site with
    | linear => exact FullBelow.mono hle hcap hl
    | explore => trivial
    | exploit => trivial
  | issue => exact HeldBy.mono hle h
  | done result =>
    cases result with
    | none => exact h
    | some => exact HeldBy.mono hle h
  | fault => exact h

theorem PcOk.held {t : Bandit} {cl : Nat → Nat} {s v : Nat} {pc : DrawPc} (h : PcOk t cl s pc)
    (hv : pc.held = some v) : HeldBy t cl s v := by
  cases pc with
  | issue => cases Option.some.inj hv; exact h
  | done result =>
    change result = some v at hv
    subst hv
    exact h
  | _ => simp [DrawPc.held] at hv

theorem drawInv_init {t₀ : Bandit} (h : t₀.Ready) : DrawInv t₀ ⟨t₀, []⟩ (blockQuota t₀) := by
  refine ⟨rfl, fun b hb => ⟨le_refl _, blockQuota_le h.shaped h.explore_le hb⟩, ?_, List.nodup_nil,
    by simp, by simp, by simp, by simp, h.issued⟩
  intro b hb
  simpa using h.drawn b hb

/-- An increment waiting to be undone means that its block is full. -/
theorem DrawInv.full_of_over {t₀ : Bandit} {c : DrawState} {cl : Nat → Nat} (h : DrawInv t₀ c cl)
    {b : Nat} (ho : 0 < (c.calls.map (overBy b)).sum) : cl b = blockSpan t₀ b := by
  obtain ⟨v, hv, hpos⟩ := List.exists_mem_ne_zero_of_sum_ne_zero (Nat.pos_iff_ne_zero.mp ho)
  obtain ⟨⟨s, pc⟩, hx, rfl⟩ := List.mem_map.mp hv
  have hok := h.pcs _ hx
  cases pc with
  | undo site blk =>
    have : blk = b := by
      by_contra hne
      simp [overBy, hne] at hpos
    subst this
    exact hok.2.2.1
  | _ => simp [overBy] at hpos

/-- One call moves on. The hypotheses say what its move does to each count. -/
theorem DrawInv.update {t₀ : Bandit} {c : DrawState} {cl cl' : Nat → Nat} (h : DrawInv t₀ c cl)
    {i s : Nat} {pc pc' : DrawPc} {t' : Bandit} (hi : c.calls[i]? = some (s, pc))
    (hsame : t₀.Same t') (hle : ∀ b < t₀.n, cl b ≤ cl' b) (hcap : ∀ b < t₀.n, cl' b ≤ blockSpan t₀ b)
    (hdrawn : ∀ b < t₀.n, (t'.b b).drawn.toNat + cl b + overBy b (s, pc) =
      (c.bandit.b b).drawn.toNat + cl' b + overBy b (s, pc'))
    (hpc : PcOk t₀ cl' s pc')
    (hnew : ∀ v, pc'.held = some v → pc.held = some v ∨
      ∀ (j : Nat) (y : Nat × DrawPc), j ≠ i → c.calls[j]? = some y → y.2.held ≠ some v)
    (htaken : ∑ b ∈ Finset.range t₀.n, (cl' b - blockQuota t₀ b) + takenBy t₀ (s, pc) =
      ∑ b ∈ Finset.range t₀.n, (cl b - blockQuota t₀ b) + takenBy t₀ (s, pc'))
    (hissued : t'.issued + returnedBy (s, pc) = c.bandit.issued + returnedBy (s, pc')) :
    DrawInv t₀ ⟨t', c.calls.set i (s, pc')⟩ cl' := by
  have hfst : (c.calls.set i (s, pc')).map Prod.fst = c.calls.map Prod.fst :=
    ListSum.map_set_of_eq Prod.fst hi rfl
  refine ⟨hsame, fun b hb => ⟨Nat.le_trans (h.bounds b hb).1 (hle b hb), hcap b hb⟩, ?_, ?_, ?_, ?_, ?_,
    ?_, ?_⟩
  · intro b hb
    have := hdrawn b hb
    have := h.drawn b hb
    have := ListSum.sum_map_set (overBy b) (s, pc') hi
    dsimp only
    omega
  · rw [hfst]
    exact h.steps
  · intro x hx
    have hmem : x.1 ∈ c.calls.map Prod.fst := by rw [← hfst]; exact List.mem_map_of_mem hx
    obtain ⟨y, hy, he⟩ := List.mem_map.mp hmem
    rw [← he]
    exact h.step_lt y hy
  · intro x hx
    rcases List.mem_or_eq_of_mem_set hx with hx | rfl
    · exact (h.pcs x hx).mono hle hcap
    · exact hpc
  · intro j k x y v hj hk hx hy
    rcases ListSum.getElem?_set_cases hj with ⟨rfl, rfl⟩ | ⟨hji, hjo⟩
    · rcases ListSum.getElem?_set_cases hk with ⟨rfl, rfl⟩ | ⟨hkj, hko⟩
      · rfl
      · rcases hnew v hx with hold | hother
        · exact h.distinct j k _ _ v hi hko hold hy
        · exact absurd hy (hother k y hkj hko)
    · rcases ListSum.getElem?_set_cases hk with ⟨rfl, rfl⟩ | ⟨hki, hko⟩
      · rcases hnew v hy with hold | hother
        · exact h.distinct j k _ _ v hjo hi hx hold
        · exact absurd hx (hother j x hji hjo)
      · exact h.distinct j k x y v hjo hko hx hy
  · have := h.taken
    have := ListSum.sum_map_set (takenBy t₀) (s, pc') hi
    dsimp only
    omega
  · have := h.issued
    have := ListSum.sum_map_set returnedBy (s, pc') hi
    dsimp only
    omega

/-- A move that touches no counter and hands nothing over. -/
theorem DrawInv.quiet {t₀ : Bandit} {c : DrawState} {cl : Nat → Nat} (h : DrawInv t₀ c cl)
    {i s : Nat} {pc pc' : DrawPc} (hi : c.calls[i]? = some (s, pc)) (hpc : PcOk t₀ cl s pc')
    (hheld : pc.held = none) (hheld' : pc'.held = none) (hover : ∀ b, overBy b (s, pc) = 0)
    (hover' : ∀ b, overBy b (s, pc') = 0) (hret : pc.returned = false) (hret' : pc'.returned = false) :
    DrawInv t₀ ⟨c.bandit, c.calls.set i (s, pc')⟩ cl := by
  refine h.update hi h.same (fun _ _ => le_refl _) (fun b hb => (h.bounds b hb).2) ?_ hpc ?_ ?_ ?_
  · intro b _
    rw [hover, hover']
  · intro v hv
    rw [hheld'] at hv
    simp at hv
  · simp [takenBy, hheld, hheld']
  · simp [returnedBy, hret, hret']

end Qanat
