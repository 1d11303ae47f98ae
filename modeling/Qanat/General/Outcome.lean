import Mathlib.Order.Defs.Unbundled

namespace Outcome

variable {ε σ α β : Type}

/-- What holds after a program that returned, and what holds after one that failed. -/
def Meets (r : EStateM.Result ε σ α) (Q : α → σ → Prop) (E : ε → σ → Prop) : Prop :=
  match r with
  | .ok a s => Q a s
  | .error e s => E e s

@[simp] theorem meets_ok {a : α} {s : σ} {Q : α → σ → Prop} {E : ε → σ → Prop} :
    Meets (.ok a s) Q E ↔ Q a s := Iff.rfl

@[simp] theorem meets_error {e : ε} {s : σ} {Q : α → σ → Prop} {E : ε → σ → Prop} :
    Meets (.error e s) Q E ↔ E e s := Iff.rfl

@[simp] theorem meets_pure {a : α} {s : σ} {Q : α → σ → Prop} {E : ε → σ → Prop} :
    Meets ((pure a : EStateM ε σ α) s) Q E ↔ Q a s := Iff.rfl

@[simp] theorem meets_throw {e : ε} {s : σ} {Q : α → σ → Prop} {E : ε → σ → Prop} :
    Meets ((throw e : EStateM ε σ α) s) Q E ↔ E e s := Iff.rfl

@[simp] theorem meets_bind {m : EStateM ε σ α} {f : α → EStateM ε σ β} {s : σ} {Q : β → σ → Prop}
    {E : ε → σ → Prop} : Meets ((m >>= f) s) Q E ↔ Meets (m s) (fun a t => Meets (f a t) Q E) E := by
  show Meets (EStateM.bind m f s) Q E ↔ _
  unfold EStateM.bind
  cases m s with
  | ok a t => exact Iff.rfl
  | error e t => exact Iff.rfl

@[simp] theorem meets_map {m : EStateM ε σ α} {f : α → β} {s : σ} {Q : β → σ → Prop} {E : ε → σ → Prop} :
    Meets ((f <$> m) s) Q E ↔ Meets (m s) (fun a t => Q (f a) t) E := by
  show Meets (EStateM.map f m s) Q E ↔ _
  unfold EStateM.map
  cases m s with
  | ok a t => exact Iff.rfl
  | error e t => exact Iff.rfl

@[simp] theorem meets_ite {c : Prop} [Decidable c] {m n : EStateM ε σ α} {s : σ} {Q : α → σ → Prop}
    {E : ε → σ → Prop} :
    Meets ((if c then m else n) s) Q E ↔ (c → Meets (m s) Q E) ∧ (¬ c → Meets (n s) Q E) := by
  by_cases h : c
  · simp [h]
  · simp [h]

theorem Meets.mono {r : EStateM.Result ε σ α} {Q Q' : α → σ → Prop} {E E' : ε → σ → Prop}
    (h : Meets r Q E) (hQ : ∀ a s, Q a s → Q' a s) (hE : ∀ e s, E e s → E' e s) : Meets r Q' E' := by
  cases r with
  | ok a s => exact hQ a s h
  | error e s => exact hE e s h

theorem Meets.and {r : EStateM.Result ε σ α} {Q Q' : α → σ → Prop} {E E' : ε → σ → Prop}
    (h : Meets r Q E) (h' : Meets r Q' E') :
    Meets r (fun a s => Q a s ∧ Q' a s) (fun e s => E e s ∧ E' e s) := by
  cases r with
  | ok a s => exact ⟨h, h'⟩
  | error e s => exact ⟨h, h'⟩

/-- Two continuations that agree on what a program can return. -/
theorem Meets.bind_congr {m : EStateM ε σ α} {f g : α → EStateM ε σ β} {s : σ} {E : ε → σ → Prop}
    (h : Meets (m s) (fun a t => f a t = g a t) E) : (m >>= f) s = (m >>= g) s := by
  show EStateM.bind m f s = EStateM.bind m g s
  unfold EStateM.bind
  cases hm : m s with
  | ok a t =>
    rw [hm] at h
    exact h
  | error e t => rfl

/-- A program that ends in a state related to the one it met, and fails only with what `bad` allows. -/
def Within (bad : ε → Prop) (R : σ → σ → Prop) (m : EStateM ε σ α) : Prop :=
  ∀ s, Meets (m s) (fun _ t => R s t) (fun e t => bad e ∧ R s t)

section Within

variable {bad bad' : ε → Prop} {R S : σ → σ → Prop}

theorem Within.bind [IsTrans σ R] {m : EStateM ε σ α} {f : α → EStateM ε σ β} (hm : Within bad R m)
    (hf : ∀ a, Within bad R (f a)) : Within bad R (m >>= f) := by
  intro s
  rw [meets_bind]
  apply (hm s).mono
  · intro a t ht
    apply (hf a t).mono
    · intro b u hu
      exact IsTrans.trans _ _ _ ht hu
    · intro e u hu
      exact ⟨hu.1, IsTrans.trans _ _ _ ht hu.2⟩
  · intro e t ht
    exact ht

theorem Within.ite {c : Prop} [Decidable c] {m n : EStateM ε σ α} (hm : Within bad R m) (hn : Within bad R n) :
    Within bad R (if c then m else n) := by
  split
  next => exact hm
  next => exact hn

theorem Within.pure [Std.Refl R] (a : α) : Within bad R (pure a : EStateM ε σ α) :=
  fun s => refl s

theorem Within.mono {m : EStateM ε σ α} (h : Within bad R m) (hbad : ∀ e, bad e → bad' e)
    (hR : ∀ s t, R s t → S s t) : Within bad' S m :=
  fun s => (h s).mono (fun _ t ht => hR s t ht) (fun e t ht => ⟨hbad e ht.1, hR s t ht.2⟩)

end Within

/-- A sequence of two programs that returned: both did. -/
theorem bind_ok {m : Except ε α} {f : α → Except ε β} {b : β} (h : m >>= f = .ok b) : ∃ a, m = .ok a ∧ f a = .ok b := by
  cases m with
  | ok a => exact ⟨a, rfl, h⟩
  | error e => cases h

theorem map_ok {m : Except ε α} {f : α → β} {b : β} (h : m.map f = .ok b) : ∃ a, m = .ok a ∧ f a = b := by
  cases m with
  | ok a => exact ⟨a, rfl, Except.ok.inj h⟩
  | error e => cases h

/-- Two outcomes of one program that agree, or one of them failed with `bad`. -/
def Tied (bad : ε) (E Q : σ → σ → Prop) : EStateM.Result ε σ α → EStateM.Result ε σ α → Prop
  | .ok a s, .ok b t => a = b ∧ Q s t
  | .error e s, .error f t => (e = f ∧ E s t) ∨ e = bad ∨ f = bad
  | .ok _ _, .error f _ => f = bad
  | .error e _, .ok _ _ => e = bad

section Tied

variable {bad : ε} {E P Q S : σ → σ → Prop}

theorem Tied.bad_left (s : σ) (r : EStateM.Result ε σ α) : Tied bad E Q (.error bad s) r := by
  cases r with
  | ok a t => exact rfl
  | error e t => exact .inr (.inl rfl)

theorem Tied.bad_right (r : EStateM.Result ε σ α) (t : σ) : Tied bad E Q r (.error bad t) := by
  cases r with
  | ok a s => exact rfl
  | error e s => exact .inr (.inr rfl)

/-- From states related by `P` a program has outcomes that agree up to failures with `bad`: related by
`Q` where it returns, by `E` where it fails. -/
def Alike (bad : ε) (E P Q : σ → σ → Prop) (m : EStateM ε σ α) : Prop :=
  ∀ s t, P s t → Tied bad E Q (m s) (m t)

theorem Alike.pure (a : α) : Alike bad E P P (pure a : EStateM ε σ α) :=
  fun _ _ h => ⟨rfl, h⟩

theorem Alike.throw (e : ε) : Alike bad E E Q (throw e : EStateM ε σ α) :=
  fun _ _ h => .inl ⟨rfl, h⟩

theorem Alike.mono {P' Q' : σ → σ → Prop} {m : EStateM ε σ α} (h : Alike bad E P Q m)
    (hP : ∀ s t, P' s t → P s t) (hQ : ∀ s t, Q s t → Q' s t) : Alike bad E P' Q' m := by
  intro s t hst
  have h' := h s t (hP s t hst)
  cases hs : m s with
  | ok a s' =>
    cases ht : m t with
    | ok b t' =>
      rw [hs, ht] at h'
      exact ⟨h'.1, hQ _ _ h'.2⟩
    | error e t' =>
      rw [hs, ht] at h'
      exact h'
  | error e s' =>
    cases ht : m t with
    | ok b t' =>
      rw [hs, ht] at h'
      exact h'
    | error e' t' =>
      rw [hs, ht] at h'
      exact h'

theorem Alike.bind {m : EStateM ε σ α} {f : α → EStateM ε σ β} (hm : Alike bad E P Q m)
    (hf : ∀ a, Alike bad E Q S (f a)) : Alike bad E P S (m >>= f) := by
  intro s t hst
  have h := hm s t hst
  show Tied bad E S (EStateM.bind m f s) (EStateM.bind m f t)
  unfold EStateM.bind
  cases hs : m s with
  | ok a s' =>
    cases ht : m t with
    | ok b t' =>
      rw [hs, ht] at h
      obtain ⟨rfl, h'⟩ := h
      exact hf a s' t' h'
    | error e t' =>
      rw [hs, ht] at h
      cases (h : e = bad)
      exact .bad_right _ _
  | error e s' =>
    cases ht : m t with
    | ok b t' =>
      rw [hs, ht] at h
      cases (h : e = bad)
      exact .bad_left _ _
    | error e' t' =>
      rw [hs, ht] at h
      exact h

theorem Alike.ite {c : Prop} [Decidable c] {m n : EStateM ε σ α} (hm : Alike bad E P Q m)
    (hn : Alike bad E P Q n) : Alike bad E P Q (if c then m else n) := by
  split
  next => exact hm
  next => exact hn

end Tied

end Outcome
