import Mathlib.Data.List.Basic

namespace Rounds

variable {σ β ε : Type}

/-- One round of a loop over an input: it goes on with what is left, or stops. -/
inductive Turn (σ β ε : Type)
  | next (s : σ) (rest : List β)
  | stop (s : σ) (e : ε)

/-- The rounds of a loop until the input is used up. -/
def run (round : σ → List β → Turn σ β ε) : Nat → σ → List β → σ × Option ε
  | 0, s, _ => (s, none)
  | _ + 1, s, [] => (s, none)
  | n + 1, s, x :: xs =>
    match round s (x :: xs) with
    | .next t rest => run round n t rest
    | .stop t e => (t, some e)

/-- What comes of a loop that goes on with another one unless it stopped. -/
def andThen (r : σ × Option ε) (f : σ → σ × Option ε) : σ × Option ε :=
  match r.2 with
  | none => f r.1
  | some e => (r.1, some e)

def Turn.map (f : σ → σ) : Turn σ β ε → Turn σ β ε
  | .next t rest => .next (f t) rest
  | .stop t e => .stop (f t) e

def Turn.state : Turn σ β ε → σ
  | .next t _ => t
  | .stop t _ => t

/-- Every round costs something. -/
def Spends (round : σ → List β → Turn σ β ε) (cost : σ → List β → Nat) : Prop :=
  ∀ s p t rest, p ≠ [] → round s p = .next t rest → cost t rest < cost s p

/-- A round on more input either does the same and leaves more, or had used up its input and goes on. -/
structure Splits (round : σ → List β → Turn σ β ε) : Prop where
  next : ∀ s a b t rest, a ≠ [] → b ≠ [] → round s a = .next t rest →
    round s (a ++ b) = .next t (rest ++ b) ∨ rest = [] ∧ round s (a ++ b) = round t b
  stop : ∀ s a b t e, a ≠ [] → round s a = .stop t e → round s (a ++ b) = .stop t e

section Run

variable {round : σ → List β → Turn σ β ε} {cost : σ → List β → Nat}

theorem run_nil (n : Nat) (s : σ) : run round n s [] = (s, none) := by
  cases n with
  | zero => rfl
  | succ n => rfl

theorem run_succ (n : Nat) (s : σ) {p : List β} (hp : p ≠ []) : run round (n + 1) s p =
    match round s p with
    | .next t rest => run round n t rest
    | .stop t e => (t, some e) := by
  cases p with
  | nil => exact absurd rfl hp
  | cons x xs => rfl

theorem run_fuel (hcost : Spends round cost) {n m : Nat} {s : σ} {p : List β} (hn : cost s p < n) (hm : cost s p < m) :
    run round n s p = run round m s p := by
  induction n generalizing m s p with
  | zero => omega
  | succ n ih =>
    cases m with
    | zero => omega
    | succ m =>
      by_cases hp : p = []
      · rw [hp, run_nil, run_nil]
      · rw [run_succ n s hp, run_succ m s hp]
        cases hr : round s p with
        | next t rest =>
          have hlt := hcost s p t rest hp hr
          exact ih (by omega) (by omega)
        | stop t e => rfl

/-- A loop on two pieces of input is the loop on the first and then on the second. -/
theorem run_append (hcost : Spends round cost) (hsplit : Splits round) {k n m : Nat} {s : σ} {a b : List β}
    (hk : cost s (a ++ b) < k) (hn : cost s a < n) (hm : ∀ t, run round n s a = (t, none) → cost t b < m) :
    run round k s (a ++ b) = andThen (run round n s a) fun t => run round m t b := by
  induction n generalizing k s a with
  | zero => omega
  | succ n ih =>
    by_cases ha : a = []
    · subst ha
      rw [run_nil] at hm ⊢
      exact run_fuel hcost hk (hm s rfl)
    by_cases hb : b = []
    · subst hb
      rw [List.append_nil] at hk ⊢
      rw [run_fuel hcost hk hn]
      cases hres : run round (n + 1) s a with
      | mk t e =>
        cases e with
        | none => exact (run_nil m t).symm
        | some e => rfl
    cases k with
    | zero => omega
    | succ k =>
      have hab : a ++ b ≠ [] := by simp [ha]
      rw [run_succ k s hab]
      rw [run_succ n s ha] at hm ⊢
      cases hr : round s a with
      | stop t e =>
        rw [hsplit.stop s a b t e ha hr]
        rfl
      | next t rest =>
        have hlt := hcost s a t rest ha hr
        rw [hr] at hm
        rcases hsplit.next s a b t rest ha hb hr with hsame | ⟨rfl, hon⟩
        · have hlt' := hcost s (a ++ b) t (rest ++ b) hab hsame
          rw [hsame]
          exact ih (by omega) (by omega) hm
        · rw [hon]
          dsimp only at hm ⊢
          rw [run_nil] at hm ⊢
          have hcb := hm t rfl
          cases m with
          | zero => omega
          | succ m =>
            dsimp only [andThen]
            rw [run_succ m t hb]
            cases hr' : round t b with
            | stop u e => rfl
            | next u rest' =>
              have h₁ := hcost t b u rest' hb hr'
              have h₂ := hcost s (a ++ b) u rest' hab (hon.trans hr')
              exact run_fuel hcost (by omega) (by omega)

/-- What every round keeps holds at the end of the loop. -/
theorem run_invariant {I : σ → Prop} (hround : ∀ s p, I s → I (round s p).state) {n : Nat} {s : σ}
    {p : List β} (h : I s) : I (run round n s p).1 := by
  induction n generalizing s p with
  | zero => exact h
  | succ n ih =>
    by_cases hp : p = []
    · rw [hp, run_nil]
      exact h
    · have hstep := hround s p h
      rw [run_succ n s hp]
      cases hr : round s p with
      | next t rest =>
        rw [hr] at hstep
        exact ih hstep
      | stop t e =>
        rw [hr] at hstep
        exact hstep

/-- The loop stops with nothing that no round stops with. -/
theorem run_stops {bad : ε → Prop} (hround : ∀ s p t e, round s p = .stop t e → ¬ bad e) {n : Nat} {s t : σ}
    {p : List β} {e : ε} (h : run round n s p = (t, some e)) : ¬ bad e := by
  induction n generalizing s p with
  | zero => simp [run] at h
  | succ n ih =>
    by_cases hp : p = []
    · rw [hp, run_nil] at h
      simp at h
    · rw [run_succ n s hp] at h
      cases hr : round s p with
      | next u rest =>
        rw [hr] at h
        exact ih h
      | stop u d =>
        rw [hr] at h
        obtain ⟨-, hd⟩ := Prod.mk.inj h
        obtain rfl := Option.some.inj hd
        exact hround s p u d hr

/-- A change of state that every round carries through is carried through by the loop. -/
theorem run_map {I : σ → Prop} {f : σ → σ} (hround : ∀ s p, I s → I (round s p).state)
    (hf : ∀ s p, I s → p ≠ [] → round (f s) p = (round s p).map f) {n : Nat} {s : σ} {p : List β} (h : I s) :
    run round n (f s) p = (f (run round n s p).1, (run round n s p).2) := by
  induction n generalizing s p with
  | zero => rfl
  | succ n ih =>
    by_cases hp : p = []
    · rw [hp, run_nil, run_nil]
    · have hstep := hround s p h
      rw [run_succ n s hp, run_succ n (f s) hp, hf s p h hp]
      cases hr : round s p with
      | next t rest =>
        rw [hr] at hstep
        exact ih hstep
      | stop t e => rfl

end Run

end Rounds
