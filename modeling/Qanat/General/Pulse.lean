import Mathlib.Data.List.Basic

/-- What a machine does at a beat: it waits, tells something, or goes on in silence. -/
inductive Pulse (σ κ : Type)
  | wait
  | emit (k : κ) (s : σ)
  | again (s : σ)

namespace Pulse

variable {σ τ κ : Type}

def map (f : σ → τ) : Pulse σ κ → Pulse τ κ
  | wait => wait
  | emit k s => emit k (f s)
  | again s => again (f s)

/-- The state behind a beat that is no wait has the property. -/
def Leads (P : σ → Prop) : Pulse σ κ → Prop
  | wait => True
  | emit _ s => P s
  | again s => P s

section Loop

variable (beat : σ → Pulse σ κ)

/-- Beats until something is told or the machine waits; `none` when the fuel runs out. -/
def next : Nat → σ → Option (Option κ × σ)
  | 0, _ => none
  | fuel + 1, s =>
    match beat s with
    | wait => some (none, s)
    | emit k s => some (some k, s)
    | again s => next fuel s

/-- Everything that is told until the machine waits. -/
def drain : Nat → σ → Option (List κ × σ)
  | 0, _ => none
  | fuel + 1, s =>
    match beat s with
    | wait => some ([], s)
    | emit k s => (drain fuel s).map fun p => (k :: p.1, p.2)
    | again s => drain fuel s

/-- Some beats and what they tell. -/
inductive Steps : σ → List κ → σ → Prop
  | refl (s) : Steps s [] s
  | emit {s k t ks u} : beat s = .emit k t → Steps t ks u → Steps s (k :: ks) u
  | again {s t ks u} : beat s = .again t → Steps t ks u → Steps s ks u

variable {beat} {s t u : σ} {ks ls : List κ} {fuel : Nat} {μ : σ → Nat}

theorem Steps.trans (h : Steps beat s ks t) (h' : Steps beat t ls u) : Steps beat s (ks ++ ls) u := by
  induction h with
  | refl => exact h'
  | emit he _ ih => exact .emit he (ih h')
  | again ha _ ih => exact .again ha (ih h')

/-- A run that ends in a wait goes through every other run. -/
theorem Steps.rest (h : Steps beat s ks t) (h' : Steps beat s ls u) (hw : beat u = .wait) :
    ∃ ms, ls = ks ++ ms ∧ Steps beat t ms u := by
  induction h generalizing ls with
  | refl => exact ⟨ls, rfl, h'⟩
  | emit he _ ih =>
    cases h' with
    | refl => cases he.symm.trans hw
    | emit he' hs =>
      cases he.symm.trans he'
      obtain ⟨ms, rfl, hms⟩ := ih hs
      exact ⟨ms, rfl, hms⟩
    | again ha' _ => cases he.symm.trans ha'
  | again ha _ ih =>
    cases h' with
    | refl => cases ha.symm.trans hw
    | emit he' _ => cases ha.symm.trans he'
    | again ha' hs =>
      cases ha.symm.trans ha'
      exact ih hs

theorem Steps.of_wait (h : Steps beat s ks t) (hw : beat s = .wait) : ks = [] ∧ t = s := by
  cases h with
  | refl => exact ⟨rfl, rfl⟩
  | emit he _ => cases he.symm.trans hw
  | again ha _ => cases ha.symm.trans hw

theorem Steps.unique (h : Steps beat s ks t) (ht : beat t = .wait) (h' : Steps beat s ls u) (hu : beat u = .wait) :
    ks = ls ∧ t = u := by
  obtain ⟨ms, rfl, hms⟩ := h.rest h' hu
  obtain ⟨rfl, rfl⟩ := hms.of_wait ht
  exact ⟨(List.append_nil _).symm, rfl⟩

/-- What one beat keeps holds at the end of a run. -/
theorem Steps.keeps {P : σ → Prop} (hP : ∀ s, P s → (beat s).Leads P) (h : Steps beat s ks t) (hs : P s) : P t := by
  induction h with
  | refl => exact hs
  | @emit s k t _ _ he _ ih =>
    have := hP s hs
    rw [he] at this
    exact ih this
  | @again s t _ _ ha _ ih =>
    have := hP s hs
    rw [ha] at this
    exact ih this

/-- A machine that another one imitates. -/
theorem Steps.map {beat' : τ → Pulse τ κ} {f : σ → τ} (hf : ∀ s, (beat s).map f = beat' (f s)) (h : Steps beat s ks t) :
    Steps beat' (f s) ks (f t) := by
  induction h with
  | refl => exact .refl _
  | @emit s _ _ _ _ he _ ih => exact .emit (by rw [← hf s, he]; rfl) ih
  | @again s _ _ _ ha _ ih => exact .again (by rw [← hf s, ha]; rfl) ih

theorem wait_map {beat' : τ → Pulse τ κ} {f : σ → τ} (hf : ∀ s, (beat s).map f = beat' (f s)) :
    beat' (f s) = .wait ↔ beat s = .wait := by
  rw [← hf s]
  cases beat s <;> simp [Pulse.map]

theorem next_steps {o : Option κ} (h : next beat fuel s = some (o, t)) :
    Steps beat s o.toList t ∧ (o = none → beat t = .wait) := by
  induction fuel generalizing s with
  | zero => cases h
  | succ fuel ih =>
    rw [next] at h
    split at h
    next hw =>
      cases h
      exact ⟨.refl _, fun _ => hw⟩
    next he =>
      cases h
      exact ⟨.emit he (.refl _), nofun⟩
    next ha =>
      obtain ⟨hs, hw⟩ := ih h
      exact ⟨.again ha hs, hw⟩

theorem drain_steps (h : drain beat fuel s = some (ks, t)) : Steps beat s ks t ∧ beat t = .wait := by
  induction fuel generalizing s ks with
  | zero => cases h
  | succ fuel ih =>
    rw [drain] at h
    split at h
    next hw =>
      cases h
      exact ⟨.refl _, hw⟩
    next he =>
      obtain ⟨p, hp, hpair⟩ := Option.map_eq_some_iff.mp h
      cases hpair
      obtain ⟨hs, hw⟩ := ih hp
      exact ⟨.emit he hs, hw⟩
    next ha =>
      obtain ⟨hs, hw⟩ := ih h
      exact ⟨.again ha hs, hw⟩

/-- A measure that every beat lowers is fuel enough. -/
theorem next_total (hμ : ∀ s, (beat s).Leads (μ · < μ s)) (h : μ s < fuel) : ∃ o t, next beat fuel s = some (o, t) := by
  induction fuel generalizing s with
  | zero => exact absurd h (Nat.not_lt_zero _)
  | succ fuel ih =>
    have := hμ s
    rw [next]
    cases ht : beat s with
    | wait => exact ⟨_, _, rfl⟩
    | emit k t => exact ⟨_, _, rfl⟩
    | again t =>
      rw [ht] at this
      exact ih (Nat.lt_of_lt_of_le this (Nat.le_of_lt_succ h))

theorem leads_map {P : τ → Prop} {f : σ → τ} {p : Pulse σ κ} (h : (p.map f).Leads P) : p.Leads (P ∘ f) := by
  cases p <;> exact h

theorem next_lowers (hμ : ∀ s, (beat s).Leads (μ · < μ s)) {k : κ} (h : next beat fuel s = some (some k, t)) :
    μ t < μ s := by
  induction fuel generalizing s with
  | zero => cases h
  | succ fuel ih =>
    have hs := hμ s
    rw [next] at h
    split at h
    next => cases h
    next he =>
      cases h
      rw [he] at hs
      exact hs
    next ha =>
      rw [ha] at hs
      exact Nat.lt_trans (ih h) hs

theorem drain_total (hμ : ∀ s, (beat s).Leads (μ · < μ s)) (h : μ s < fuel) :
    ∃ ks t, drain beat fuel s = some (ks, t) := by
  induction fuel generalizing s with
  | zero => exact absurd h (Nat.not_lt_zero _)
  | succ fuel ih =>
    have := hμ s
    rw [drain]
    cases ht : beat s with
    | wait => exact ⟨_, _, rfl⟩
    | emit k t =>
      rw [ht] at this
      obtain ⟨ks, u, hu⟩ := ih (Nat.lt_of_lt_of_le this (Nat.le_of_lt_succ h))
      exact ⟨k :: ks, u, by simp only [hu, Option.map_some]⟩
    | again t =>
      rw [ht] at this
      exact ih (Nat.lt_of_lt_of_le this (Nat.le_of_lt_succ h))

end Loop

section Stream

variable {α : Type} {beat : σ × List α → Pulse (σ × List α) κ} {ok : σ → Prop} {s t : σ} {q r : List α} {ks : List κ}

/-- More input behind what it has not read. -/
def fed (r : List α) (p : σ × List α) : σ × List α :=
  (p.1, p.2 ++ r)

/-- The machine decides by what it has read, and reads from the front. -/
structure Streams (beat : σ × List α → Pulse (σ × List α) κ) (ok : σ → Prop) : Prop where
  stable : ∀ s q r, ok s → beat (s, q) ≠ .wait → beat (s, q ++ r) = (beat (s, q)).map (fed r)
  keeps : ∀ s q, ok s → (beat (s, q)).Leads fun p => ok p.1 ∧ p.2 <:+ q

theorem Steps.streams (hst : Streams beat ok) {p p' : σ × List α} (h : Steps beat p ks p') (hs : ok p.1) :
    ok p'.1 ∧ p'.2 <:+ p.2 :=
  h.keeps (P := fun x => ok x.1 ∧ x.2 <:+ p.2)
    (fun x hx => by
      have := hst.keeps x.1 x.2 hx.1
      change (beat x).Leads _ at this
      cases hx' : beat x with
      | wait => trivial
      | emit k y =>
        rw [hx'] at this
        exact ⟨this.1, this.2.trans hx.2⟩
      | again y =>
        rw [hx'] at this
        exact ⟨this.1, this.2.trans hx.2⟩) ⟨hs, List.suffix_rfl⟩

/-- A run is the same one with more input behind it. -/
theorem Steps.feed (hst : Streams beat ok) {p p' : σ × List α} (h : Steps beat p ks p') (hs : ok p.1) (r : List α) :
    Steps beat (fed r p) ks (fed r p') := by
  induction h with
  | refl => exact .refl _
  | @emit p k p₁ _ _ he _ ih =>
    have hstep := hst.stable p.1 p.2 r hs (by rw [he]; exact nofun)
    have hok := hst.keeps p.1 p.2 hs
    rw [he] at hstep hok
    exact .emit hstep (ih hok.1)
  | @again p p₁ _ _ ha _ ih =>
    have hstep := hst.stable p.1 p.2 r hs (by rw [ha]; exact nofun)
    have hok := hst.keeps p.1 p.2 hs
    rw [ha] at hstep hok
    exact .again hstep (ih hok.1)

end Stream

end Pulse
