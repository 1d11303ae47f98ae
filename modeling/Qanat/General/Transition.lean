import Mathlib.Data.List.Count
import Mathlib.Logic.Function.Iterate

namespace Transition

variable {σ α : Type*}

/-- A finite run: every action meets `guard` in the state it is taken in. -/
inductive Run (step : σ → α → Option σ) (guard : σ → α → Prop) (start : σ) : List α → σ → Prop
  | nil : Run step guard start [] start
  | snoc {acts : List α} {a : α} {s s' : σ} : Run step guard start acts s → guard s a →
      step s a = some s' → Run step guard start (acts ++ [a]) s'

def Reach (step : σ → α → Option σ) (guard : σ → α → Prop) (start s : σ) : Prop :=
  ∃ acts, Run step guard start acts s

variable {step : σ → α → Option σ} {guard : σ → α → Prop} {start : σ}

theorem Run.invariant {inv : σ → Prop} (h₀ : inv start)
    (hstep : ∀ s a s', inv s → guard s a → step s a = some s' → inv s') {acts : List α} {s : σ}
    (h : Run step guard start acts s) : inv s := by
  induction h with
  | nil => exact h₀
  | snoc _ hg hs ih => exact hstep _ _ _ ih hg hs

theorem Reach.invariant {inv : σ → Prop} (h₀ : inv start)
    (hstep : ∀ s a s', inv s → guard s a → step s a = some s' → inv s') {s : σ}
    (h : Reach step guard start s) : inv s := by
  obtain ⟨_, hrun⟩ := h
  exact hrun.invariant h₀ hstep

theorem Reach.refl : Reach step guard start start := ⟨[], .nil⟩

theorem Reach.tail {a : α} {s s' : σ} (h : Reach step guard start s) (hg : guard s a)
    (hs : step s a = some s') : Reach step guard start s' := by
  obtain ⟨acts, hrun⟩ := h
  exact ⟨acts ++ [a], .snoc hrun hg hs⟩

/-- A run given by its actions, where `check` takes only steps that meet the guard. -/
theorem Run.follow {check : σ → α → Option σ} {acts more : List α} {s s' : σ} (h : Run step guard start acts s)
    (hc : ∀ a ∈ more, ∀ t t', check t a = some t' → guard t a ∧ step t a = some t')
    (hs : more.foldlM check s = some s') : Run step guard start (acts ++ more) s' := by
  induction more generalizing acts s with
  | nil =>
    obtain rfl := Option.some.inj hs
    rwa [List.append_nil]
  | cons a more ih =>
    rw [List.foldlM_cons] at hs
    obtain ⟨t, ht, hrest⟩ := Option.bind_eq_some_iff.mp hs
    obtain ⟨hg, hstep⟩ := hc a List.mem_cons_self s t ht
    have hrun := ih (.snoc h hg hstep) (fun b hb => hc b (List.mem_cons_of_mem _ hb)) hrest
    rwa [List.append_assoc] at hrun

theorem Run.actions {acts more : List α} {s s' : σ} (h : Run step guard start acts s)
    (hg : ∀ a ∈ more, ∀ t, guard t a) (hs : more.foldlM step s = some s') : Run step guard start (acts ++ more) s' :=
  h.follow (fun a ha t _ ht => ⟨hg a ha t, ht⟩) hs

/-- A step that is taken where the guard is met only. -/
def guarded (step : σ → α → Option σ) (guard : σ → α → Prop) [∀ s a, Decidable (guard s a)] (s : σ) (a : α) :
    Option σ :=
  if guard s a then step s a else none

theorem Run.decided [∀ s a, Decidable (guard s a)] {acts more : List α} {s s' : σ} (h : Run step guard start acts s)
    (hs : more.foldlM (guarded step guard) s = some s') : Run step guard start (acts ++ more) s' := by
  refine h.follow (fun a _ t t' ht => ?_) hs
  unfold guarded at ht
  split at ht
  next hg => exact ⟨hg, ht⟩
  next => cases ht

theorem Reach.actions {acts : List α} {s s' : σ} (h : Reach step guard start s)
    (hg : ∀ a ∈ acts, ∀ t, guard t a) (hs : acts.foldlM step s = some s') : Reach step guard start s' := by
  obtain ⟨done, hrun⟩ := h
  exact ⟨done ++ acts, hrun.actions hg hs⟩

/-- Repeating one action `k` times. -/
theorem Reach.iterate {τ : Type*} {f : τ → σ} {g : τ → τ} {a : α} (hg : ∀ t, guard (f t) a)
    (hs : ∀ t, step (f t) a = some (f (g t))) {t : τ} (h : Reach step guard start (f t)) (k : Nat) :
    Reach step guard start (f (g^[k] t)) := by
  induction k with
  | zero => exact h
  | succ k ih =>
    rw [Function.iterate_succ_apply']
    exact ih.tail (hg _) (hs _)

end Transition
