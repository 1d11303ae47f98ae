import Mathlib.Algebra.Order.Ring.Nat
import Mathlib.Data.List.Basic

namespace Scanner

variable {σ β : Type} (bad : σ → Bool) (step : σ → β → σ)

/-- A scanner gets some input; it stops at the first element that spoils it, and says whether it has not. -/
def push : σ → List β → σ × Bool
  | s, [] => (s, !bad s)
  | s, b :: p => if bad s then (s, false) else push (step s b) p

/-- Input that comes in pieces, and whether no piece was refused. -/
def pushAll : σ → List (List β) → σ × Bool
  | s, [] => (s, true)
  | s, f :: fs => ((pushAll (push bad step s f).1 fs).1, (push bad step s f).2 && (pushAll (push bad step s f).1 fs).2)

/-- The whole input is taken, and leaves the scanner as `P` wants it. -/
def Accepts (P : σ → Prop) (s : σ) (p : List β) : Prop :=
  (push bad step s p).2 = true ∧ P (push bad step s p).1

section Push

variable {bad : σ → Bool} {step : σ → β → σ} {P : σ → Prop} {s : σ}

theorem push_bad (h : bad s = true) (p : List β) : push bad step s p = (s, false) := by
  cases p with
  | nil => simp [push, h]
  | cons b p => simp [push, h]

theorem push_cons (h : bad s = false) (b : β) (p : List β) :
    push bad step s (b :: p) = push bad step (step s b) p := by
  simp [push, h]

/-- Whether a push went well can be read off the scanner. -/
theorem push_bad_iff (p : List β) : bad (push bad step s p).1 = !(push bad step s p).2 := by
  induction p generalizing s with
  | nil => simp [push]
  | cons b p ih =>
    cases h : bad s with
    | true => simp [push, h]
    | false =>
      rw [push_cons h]
      exact ih

theorem push_append (p q : List β) : push bad step s (p ++ q) =
    if (push bad step s p).2 then push bad step (push bad step s p).1 q else push bad step s p := by
  induction p generalizing s with
  | nil =>
    cases h : bad s with
    | true => simp [push, h, push_bad h]
    | false => simp [push, h]
  | cons b p ih =>
    cases h : bad s with
    | true => simp [push, h]
    | false =>
      rw [List.cons_append, push_cons h, push_cons h]
      exact ih

/-- What a step keeps, a push keeps. -/
theorem push_keeps {I : σ → Prop} (hstep : ∀ s b, bad s = false → I s → I (step s b)) (h : I s) (p : List β) :
    I (push bad step s p).1 := by
  induction p generalizing s with
  | nil => exact h
  | cons b p ih =>
    cases hs : bad s with
    | true => simpa [push, hs] using h
    | false =>
      rw [push_cons hs]
      exact ih (hstep s b hs h)

theorem pushAll_keeps {I : σ → Prop} (hstep : ∀ s b, bad s = false → I s → I (step s b)) (h : I s)
    (fs : List (List β)) : I (pushAll bad step s fs).1 := by
  induction fs generalizing s with
  | nil => exact h
  | cons f fs ih => exact ih (push_keeps hstep h f)

theorem pushAll_bad (h : bad s = true) (fs : List (List β)) : (pushAll bad step s fs).1 = s := by
  induction fs with
  | nil => rfl
  | cons f fs ih => simp [pushAll, push_bad h, ih]

/-- Once a piece has been refused, the scanner is spoilt for good. -/
theorem pushAll_failed (fs : List (List β)) (h : (pushAll bad step s fs).2 = false) :
    bad (pushAll bad step s fs).1 = true := by
  induction fs generalizing s with
  | nil => cases h
  | cons f fs ih =>
    cases hf : (push bad step s f).2 with
    | true =>
      have hrest : (pushAll bad step (push bad step s f).1 fs).2 = false := by simpa [pushAll, hf] using h
      exact ih hrest
    | false =>
      have hbad : bad (push bad step s f).1 = true := by simp [push_bad_iff, hf]
      show bad (pushAll bad step (push bad step s f).1 fs).1 = true
      rw [pushAll_bad hbad]
      exact hbad

/-- Pieces that are all taken are as good as the whole. -/
theorem pushAll_accepts (hP : ∀ s, P s → bad s = false) (fs : List (List β)) :
    ((pushAll bad step s fs).2 = true ∧ P (pushAll bad step s fs).1) ↔ Accepts bad step P s fs.flatten := by
  induction fs generalizing s with
  | nil =>
    unfold Accepts pushAll push
    constructor
    · rintro ⟨-, h⟩
      exact ⟨by simp [hP s h], h⟩
    · rintro ⟨-, h⟩
      exact ⟨rfl, h⟩
  | cons f fs ih =>
    have happ : push bad step s (f ++ fs.flatten) = _ := push_append f fs.flatten
    unfold Accepts
    rw [List.flatten_cons, happ]
    cases h : (push bad step s f).2 with
    | true =>
      rw [if_pos rfl]
      simpa [pushAll, h, Accepts] using ih
    | false =>
      rw [if_neg Bool.false_ne_true, h]
      simp [pushAll, h]

theorem accepts_bad (h : bad s = true) (p : List β) : ¬ Accepts bad step P s p := by
  rintro ⟨hok, -⟩
  rw [push_bad h] at hok
  cases hok

theorem accepts_nil (hP : P s → bad s = false) : Accepts bad step P s [] ↔ P s := by
  unfold Accepts push
  exact ⟨fun h => h.2, fun h => ⟨by simp [hP h], h⟩⟩

theorem accepts_cons (h : bad s = false) (b : β) (p : List β) :
    Accepts bad step P s (b :: p) ↔ Accepts bad step P (step s b) p := by
  unfold Accepts
  rw [push_cons h]

/-- A scanner that is not through with `n` elements reads them, with `f` saying where each brings it. -/
theorem accepts_read (f : List β → σ) (n : Nat) (hbad : ∀ l, l.length < n → bad (f l) = false)
    (hP : ∀ l, l.length < n → ¬ P (f l)) (hstep : ∀ l b, l.length < n → step (f l) b = f (l ++ [b]))
    (l : List β) (hl : l.length ≤ n) (p : List β) : Accepts bad step P (f l) p ↔
      ∃ h rest, p = h ++ rest ∧ l.length + h.length = n ∧ Accepts bad step P (f (l ++ h)) rest := by
  induction p generalizing l with
  | nil =>
    rcases Nat.lt_or_eq_of_le hl with hlt | heq
    · constructor
      · rintro ⟨-, h⟩
        exact absurd h (hP l hlt)
      · rintro ⟨h, rest, hp, hlen, -⟩
        obtain ⟨rfl, rfl⟩ := List.nil_eq_append_iff.mp hp
        simp at hlen
        omega
    · constructor
      · intro h
        exact ⟨[], [], rfl, heq, by simpa using h⟩
      · rintro ⟨h, rest, hp, -, hacc⟩
        obtain ⟨rfl, rfl⟩ := List.nil_eq_append_iff.mp hp
        simpa using hacc
  | cons b p ih =>
    rcases Nat.lt_or_eq_of_le hl with hlt | heq
    · rw [accepts_cons (hbad l hlt), hstep l b hlt, ih (l ++ [b]) (by simp; omega)]
      constructor
      · rintro ⟨h, rest, rfl, hlen, hacc⟩
        exact ⟨b :: h, rest, rfl, by simp at hlen ⊢; omega, by simpa using hacc⟩
      · rintro ⟨h, rest, hp, hlen, hacc⟩
        cases h with
        | nil =>
          simp at hlen
          omega
        | cons c h =>
          obtain ⟨rfl, rfl⟩ := List.cons.inj hp
          exact ⟨h, rest, rfl, by simp at hlen ⊢; omega, by simpa using hacc⟩
    · constructor
      · intro h
        exact ⟨[], b :: p, rfl, heq, by simpa using h⟩
      · rintro ⟨h, rest, hp, hlen, hacc⟩
        obtain rfl : h = [] := List.eq_nil_of_length_eq_zero (by omega)
        rw [hp]
        simpa using hacc

end Push

end Scanner
