import Qanat.EngineRun

namespace Qanat

variable {ι : Type}

/-- The index whose call of `next` is under way. -/
def WorkerPc.asks : WorkerPc ι → Option Nat
  | .ask _ idx => some idx
  | _ => none

/-- What a worker has of the shared cursor: its chunk, the calls it has made and is making. -/
structure ClaimView (ι : Type) where
  cur : Nat
  last : Nat
  asked : List (Nat × TaskNext ι)
  asks : Option Nat
  claimed : Nat

def Worker.view (w : Worker ι) : ClaimView ι :=
  ⟨w.claimCur, w.claimEnd, w.asked, w.pc.asks, w.stats.claimed⟩

/-- How often a worker has called `next` for index `x`, is calling it, or still has it in its chunk. -/
def ClaimView.held (x : Nat) (v : ClaimView ι) : Nat :=
  (v.asked.map Prod.fst).count x + (if v.asks = some x then 1 else 0) +
    if v.cur ≤ x ∧ x < v.last then 1 else 0

/-- The indices a worker has counted as claimed or will count when it retires. -/
def ClaimView.share (domain : Nat) (v : ClaimView ι) : Nat :=
  v.claimed + (clip domain v.last - clip domain v.cur)

/-- The effect of one operation on the cursor and on the share of one worker; `lossy` says that the
rest of the chunk is given up. -/
structure ViewStep (domain : Nat) (lossy : Prop) (cursor : Nat) (v : ClaimView ι) (cursor' : Nat)
    (v' : ClaimView ι) : Prop where
  advance : v.cur ≤ v'.cur
  cur_le : v'.cur ≤ v'.last
  last_le : v'.last ≤ cursor'
  grows : cursor ≤ cursor'
  share : v'.share domain + clip domain cursor = v.share domain + clip domain cursor'
  once : ∀ x, v'.held x ≤ v.held x + if cursor ≤ x ∧ x < cursor' then 1 else 0
  kept : (lossy → domain ≤ v.cur) →
    ∀ x < domain, (v.held x + if cursor ≤ x ∧ x < cursor' then 1 else 0) ≤ v'.held x

section ViewSteps

variable {domain cursor : Nat} {v : ClaimView ι}

theorem viewStep_same (lossy : Prop) (hcur : v.cur ≤ v.last) (hlast : v.last ≤ cursor) :
    ViewStep domain lossy cursor v cursor v := by
  have hnone : ∀ x, ¬(cursor ≤ x ∧ x < cursor) := fun x => by omega
  refine ⟨le_refl _, hcur, hlast, le_refl _, rfl, ?_, ?_⟩
  · intro x
    rw [if_neg (hnone x)]
    exact le_refl _
  · intro _ x _
    rw [if_neg (hnone x)]
    exact le_refl _

/-- A fresh chunk in place of one used up. -/
theorem viewStep_refill (hcur : v.cur = v.last) (hlast : v.last ≤ cursor) (n : Nat) :
    ViewStep domain False cursor v (cursor + n) { v with cur := cursor, last := cursor + n } := by
  have hheld : ∀ x, ({ v with cur := cursor, last := cursor + n } : ClaimView ι).held x =
      v.held x + if cursor ≤ x ∧ x < cursor + n then 1 else 0 := by
    intro x
    unfold ClaimView.held
    dsimp only
    rw [if_neg (show ¬(v.cur ≤ x ∧ x < v.last) by omega)]
    rfl
  refine ⟨hcur.trans_le hlast, Nat.le_add_right _ _, le_refl _, Nat.le_add_right _ _, ?_, ?_, ?_⟩
  · have hmono : clip domain cursor ≤ clip domain (cursor + n) := by
      unfold clip
      split <;> omega
    unfold ClaimView.share
    dsimp only
    rw [hcur]
    omega
  · intro x
    exact Nat.le_of_eq (hheld x)
  · intro _ x _
    exact Nat.le_of_eq (hheld x).symm

/-- Drawing the next index of the chunk. -/
theorem viewStep_take (hcur : v.cur < v.last) (hlast : v.last ≤ cursor) (hasks : v.asks = none)
    (hin : domain = 0 ∨ v.cur < domain) :
    ViewStep domain False cursor v cursor
      { v with cur := v.cur + 1, asks := some v.cur, claimed := v.claimed + 1 } := by
  have hnone : ∀ x, ¬(cursor ≤ x ∧ x < cursor) := fun x => by omega
  have hheld : ∀ x, ({ v with cur := v.cur + 1, asks := some v.cur, claimed := v.claimed + 1 } : ClaimView ι).held x =
      v.held x := by
    intro x
    unfold ClaimView.held
    simp only [hasks, Option.some.injEq, reduceCtorEq, if_false]
    by_cases hx : v.cur = x
    · subst hx
      rw [if_pos rfl, if_neg (by omega), if_pos (by omega)]
    · rw [if_neg hx]
      congr 1
      exact if_congr (by omega) rfl rfl
  refine ⟨Nat.le_succ _, hcur, hlast, le_refl _, ?_, ?_, ?_⟩
  · unfold ClaimView.share clip
    dsimp only
    split <;> omega
  · intro x
    rw [if_neg (hnone x), hheld]
    exact le_refl _
  · intro _ x _
    rw [if_neg (hnone x), hheld]
    exact le_refl _

/-- Drawing an index beyond the domain. -/
theorem viewStep_over (hcur : v.cur < v.last) (hlast : v.last ≤ cursor) (hasks : v.asks = none)
    (hdomain : domain ≠ 0) (hout : domain ≤ v.cur) :
    ViewStep domain False cursor v cursor { v with cur := v.cur + 1, asks := none } := by
  have hnone : ∀ x, ¬(cursor ≤ x ∧ x < cursor) := fun x => by omega
  refine ⟨Nat.le_succ _, hcur, hlast, le_refl _, ?_, ?_, ?_⟩
  · unfold ClaimView.share clip
    dsimp only
    simp only [if_neg hdomain]
    omega
  · intro x
    rw [if_neg (hnone x)]
    unfold ClaimView.held
    simp only [hasks, reduceCtorEq, if_false]
    split_ifs <;> omega
  · intro _ x hx
    rw [if_neg (hnone x)]
    unfold ClaimView.held
    simp only [hasks, reduceCtorEq, if_false]
    split_ifs <;> omega

/-- `next` returns. -/
theorem viewStep_answer {idx : Nat} (hcur : v.cur ≤ v.last) (hlast : v.last ≤ cursor)
    (hasks : v.asks = some idx) (rc : TaskNext ι) :
    ViewStep domain False cursor v cursor { v with asked := v.asked ++ [(idx, rc)], asks := none } := by
  have hnone : ∀ x, ¬(cursor ≤ x ∧ x < cursor) := fun x => by omega
  have hheld : ∀ x, ({ v with asked := v.asked ++ [(idx, rc)], asks := none } : ClaimView ι).held x =
      v.held x := by
    intro x
    unfold ClaimView.held
    simp only [hasks, List.map_append, List.map_singleton, List.count_append, List.count_singleton,
      beq_iff_eq, Option.some.injEq, reduceCtorEq, if_false, Nat.add_zero]
  refine ⟨le_refl _, hcur, hlast, le_refl _, rfl, ?_, ?_⟩
  · intro x
    rw [if_neg (hnone x), hheld]
    exact le_refl _
  · intro _ x _
    rw [if_neg (hnone x), hheld]
    exact le_refl _

/-- Giving up the rest of the chunk. -/
theorem viewStep_retire {lossy : Prop} (hlossy : lossy) (hcur : v.cur ≤ v.last) (hlast : v.last ≤ cursor)
    (hasks : v.asks = none) :
    ViewStep domain lossy cursor v cursor
      { v with cur := v.last, asks := none, claimed := v.claimed + (clip domain v.last - v.cur) } := by
  have hnone : ∀ x, ¬(cursor ≤ x ∧ x < cursor) := fun x => by omega
  refine ⟨hcur, le_refl _, hlast, le_refl _, ?_, ?_, ?_⟩
  · unfold ClaimView.share clip
    dsimp only
    split <;> omega
  · intro x
    rw [if_neg (hnone x)]
    unfold ClaimView.held
    simp only [hasks, reduceCtorEq, if_false]
    split_ifs <;> omega
  · intro hkeep x hx
    have := hkeep hlossy
    rw [if_neg (hnone x)]
    unfold ClaimView.held
    simp only [hasks, reduceCtorEq, if_false]
    split_ifs <;> omega

theorem ViewStep.trans {cursor₁ cursor₂ : Nat} {v₁ v₂ : ClaimView ι}
    (h : ViewStep domain False cursor v cursor₁ v₁) (h' : ViewStep domain False cursor₁ v₁ cursor₂ v₂) :
    ViewStep domain False cursor v cursor₂ v₂ := by
  have hg := h.grows
  have hg' := h'.grows
  have hsplit : ∀ x, ((if cursor ≤ x ∧ x < cursor₁ then 1 else 0) + if cursor₁ ≤ x ∧ x < cursor₂ then 1 else 0) =
      if cursor ≤ x ∧ x < cursor₂ then 1 else 0 := by
    intro x
    split_ifs <;> omega
  refine ⟨le_trans h.advance h'.advance, h'.cur_le, h'.last_le, le_trans hg hg', ?_, ?_, ?_⟩
  · have := h.share
    have := h'.share
    omega
  · intro x
    have := h.once x
    have := h'.once x
    have := hsplit x
    omega
  · intro _ x hx
    have := h.kept False.elim x hx
    have := h'.kept False.elim x hx
    have := hsplit x
    omega

theorem ViewStep.weaken {cursor' : Nat} {v' : ClaimView ι} (h : ViewStep domain False cursor v cursor' v')
    (lossy : Prop) : ViewStep domain lossy cursor v cursor' v' :=
  { h with kept := fun _ => h.kept False.elim }

end ViewSteps

end Qanat
