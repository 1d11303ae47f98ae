import Mathlib.Data.List.Forall2
import Mathlib.Order.Lattice
import Mathlib.Algebra.Order.Ring.Int
import Mathlib.Tactic.Common

namespace Qanat

section Model

/-- `ln_q16`: a natural logarithm with sixteen bits behind the point. -/
def lnQ16 (v : Nat) : Int :=
  if v = 0 then -(20 * 65536)
  else
    let k := Nat.log2 v
    let m : Int := ((v <<< 16) >>> k : Nat)
    let t := ((m - 65536) * 65536).tdiv (m + 65536)
    let t2 := (t * t) >>> (16 : Nat)
    let s := t
    let t := (t * t2) >>> (16 : Nat)
    let s := s + t.tdiv 3
    let t := (t * t2) >>> (16 : Nat)
    let s := s + t.tdiv 5
    (k : Int) * 45426 + 2 * s

/-- `ln_ratio_milli`; the last step is a conversion to 32 bits. -/
def lnRatioMilli (num den : Nat) : Int :=
  (((lnQ16 num - lnQ16 den) * 1000) >>> (16 : Nat)).bmod (2 ^ 32)

/-- `QN_CLAMP`. -/
def qnClamp {α : Type} [Min α] [Max α] (v lo hi : α) : α :=
  min (max v lo) hi

/-- `qn_sprt`. -/
structure Sprt where
  llr : Int
  up : Int
  down : Int
  accept : Int
  reject : Int
  n : Nat
  good : Nat
  nmin : Nat
  nmax : Nat

/-- The hypothesis `p1` of `qn_sprt_init` behind its two adjustments. -/
def sprtP1 (p0 p1 : Nat) : Nat :=
  if p1 ≤ p0 then if 999 < p0 + 1 then 999 else p0 + 1 else p1

/-- `qn_sprt_init`. -/
def sprtInit (p0 p1 alpha beta : UInt32) (nmin nmax : UInt16) : Sprt :=
  let p0 := qnClamp p0.toNat 1 999
  let p1 := sprtP1 p0 (qnClamp p1.toNat 1 999)
  let alpha := qnClamp alpha.toNat 1 499
  let beta := qnClamp beta.toNat 1 499
  let nmin := if nmin.toNat ≠ 0 then nmin.toNat else 1
  { llr := 0
    up := lnRatioMilli p1 p0
    down := lnRatioMilli (1000 - p1) (1000 - p0)
    accept := lnRatioMilli (1000 - beta) alpha
    reject := lnRatioMilli beta (1000 - alpha)
    n := 0
    good := 0
    nmin := nmin
    nmax := if nmin < nmax.toNat then nmax.toNat else nmin }

/-- `qn_sprt_state`. -/
inductive SprtState
  | continue | accept | reject
  deriving DecidableEq

/-- `qn_sprt_status`. -/
def sprtStatus (s : Sprt) : SprtState :=
  if s.n < s.nmin then .continue
  else if s.accept ≤ s.llr then .accept
  else if s.llr ≤ s.reject then .reject
  else if s.nmax ≤ s.n then if 0 ≤ s.llr then .accept else .reject
  else .continue

/-- What an outcome adds. -/
def Sprt.delta (s : Sprt) (good : Bool) : Int :=
  if good then s.up else s.down

/-- `qn_sprt_push`: the test behind the outcome, and the answer. -/
def sprtPush (s : Sprt) (good : Bool) : Sprt × SprtState :=
  let s :=
    { s with
      n := if s.n < 0xFFFF then s.n + 1 else s.n
      good := if good ∧ s.good < 0xFFFF then s.good + 1 else s.good
      llr := qnClamp (s.llr + s.delta good) (-1000000) 1000000 }
  (s, sprtStatus s)

/-- A sequence of pushes: the test behind it, and the answers in order. -/
def sprtRun (s : Sprt) : List Bool → Sprt × List SprtState
  | [] => (s, [])
  | good :: outs =>
    let (s, answer) := sprtPush s good
    let (s, answers) := sprtRun s outs
    (s, answer :: answers)

end Model

section Logarithm

theorem lnQ16_step : ∀ v < 998, lnQ16 (v + 1) ≤ lnQ16 (v + 2) := by
  decide +kernel

/-- The logarithm is monotone over all arguments that the test can have, over the powers of two as well. -/
theorem lnQ16_mono {a b : Nat} (ha : 1 ≤ a) (hab : a ≤ b) (hb : b ≤ 999) : lnQ16 a ≤ lnQ16 b := by
  induction b, hab using Nat.le_induction with
  | base => exact le_refl _
  | succ b hab ih =>
    refine (ih (by omega)).trans ?_
    have hstep := lnQ16_step (b - 1) (by omega)
    rwa [show b - 1 + 1 = b by omega, show b - 1 + 2 = b + 1 by omega] at hstep

/-- The scaled ratio is small, so that its conversion to 32 bits keeps it. -/
theorem lnRatioMilli_eq {a b : Nat} (ha : 1 ≤ a) (ha' : a ≤ 999) (hb : 1 ≤ b) (hb' : b ≤ 999) :
    lnRatioMilli a b = ((lnQ16 a - lnQ16 b) * 1000) / 65536 ∧ -10000 ≤ lnRatioMilli a b ∧ lnRatioMilli a b ≤ 10000 := by
  have hlo := lnQ16_mono (le_refl 1) ha ha'
  have hhi := lnQ16_mono ha ha' (le_refl 999)
  have hlo' := lnQ16_mono (le_refl 1) hb hb'
  have hhi' := lnQ16_mono hb hb' (le_refl 999)
  have hone : lnQ16 1 = 0 := by decide
  have htop : lnQ16 999 ≤ 500000 := by decide
  have hshift : ((lnQ16 a - lnQ16 b) * 1000) >>> (16 : Nat) = ((lnQ16 a - lnQ16 b) * 1000) / 65536 :=
    Int.shiftRight_eq_div_pow _ 16
  unfold lnRatioMilli
  rw [hshift, Int.bmod_eq_of_le (by omega) (by omega)]
  exact ⟨rfl, by omega, by omega⟩

theorem lnRatioMilli_nonneg {a b : Nat} (hb : 1 ≤ b) (hab : b ≤ a) (ha : a ≤ 999) : 0 ≤ lnRatioMilli a b := by
  have hmono := lnQ16_mono hb hab ha
  rw [(lnRatioMilli_eq (hb.trans hab) ha hb (hab.trans ha)).1]
  omega

theorem lnRatioMilli_nonpos {a b : Nat} (ha : 1 ≤ a) (hab : a ≤ b) (hb : b ≤ 999) : lnRatioMilli a b ≤ 0 := by
  have hmono := lnQ16_mono ha hab hb
  rw [(lnRatioMilli_eq ha (hab.trans hb) (ha.trans hab) hb).1]
  omega

/-- The logarithms on the two sides of one half are apart. -/
theorem lnQ16_half {a b : Nat} (hb : 1 ≤ b) (hb' : b ≤ 499) (ha : 501 ≤ a) (ha' : a ≤ 999) :
    lnQ16 b + 66 ≤ lnQ16 a := by
  have hlow := lnQ16_mono hb hb' (by decide)
  have hhigh := lnQ16_mono (by decide) ha ha'
  have hgap : lnQ16 499 + 66 ≤ lnQ16 501 := by decide
  omega

theorem qnClamp_mem {v lo hi : Nat} (h : lo ≤ hi) : lo ≤ qnClamp v lo hi ∧ qnClamp v lo hi ≤ hi := by
  unfold qnClamp
  omega

theorem qnClamp_mono {x y lo hi : Int} (h : x ≤ y) : qnClamp x lo hi ≤ qnClamp y lo hi :=
  min_le_min_right _ (max_le_max_right _ h)

end Logarithm

section Walk

/-- What the parameters of a test satisfy. -/
structure Sprt.Sound (s : Sprt) : Prop where
  reject : s.reject < 0
  accept : 0 < s.accept
  down : s.down ≤ 0
  up : 0 ≤ s.up
  delta : ∀ good, -10000 ≤ s.delta good ∧ s.delta good ≤ 10000
  order : s.nmin ≤ s.nmax
  limit : s.nmax < 2 ^ 16
  llr : -1000000 ≤ s.llr ∧ s.llr ≤ 1000000

theorem sprtInit_sound (p0 p1 alpha beta : UInt32) (nmin nmax : UInt16) :
    (sprtInit p0 p1 alpha beta nmin nmax).Sound := by
  unfold sprtInit
  dsimp only
  obtain ⟨hp0, hp0'⟩ := @qnClamp_mem p0.toNat 1 999 (by decide)
  obtain ⟨hp1, hp1'⟩ := @qnClamp_mem p1.toNat 1 999 (by decide)
  obtain ⟨ha, ha'⟩ := @qnClamp_mem alpha.toNat 1 499 (by decide)
  obtain ⟨hb, hb'⟩ := @qnClamp_mem beta.toNat 1 499 (by decide)
  obtain ⟨hle, hle'⟩ : qnClamp p0.toNat 1 999 ≤ sprtP1 (qnClamp p0.toNat 1 999) (qnClamp p1.toNat 1 999) ∧
      sprtP1 (qnClamp p0.toNat 1 999) (qnClamp p1.toNat 1 999) ≤ 999 := by
    unfold sprtP1
    split
    · split <;> omega
    · omega
  generalize qnClamp p0.toNat 1 999 = q0 at *
  generalize sprtP1 q0 (qnClamp p1.toNat 1 999) = q1 at *
  generalize qnClamp alpha.toNat 1 499 = a at *
  generalize qnClamp beta.toNat 1 499 = b at *
  have hnmin := nmin.toNat_lt
  have hnmax := nmax.toNat_lt
  refine ⟨?_, ?_, lnRatioMilli_nonpos (by omega) (by omega) (by omega), lnRatioMilli_nonneg hp0 hle hle', ?_, ?_, ?_,
    ?_⟩
  · have hgap := @lnQ16_half (1000 - a) b hb hb' (by omega) (by omega)
    change lnRatioMilli b (1000 - a) < 0
    rw [(lnRatioMilli_eq hb (by omega) (by omega) (by omega)).1]
    omega
  · have hgap := @lnQ16_half (1000 - b) a ha ha' (by omega) (by omega)
    change 0 < lnRatioMilli (1000 - b) a
    rw [(lnRatioMilli_eq (by omega) (by omega) ha (by omega)).1]
    omega
  · intro good
    cases good with
    | true => exact (lnRatioMilli_eq (hp0.trans hle) hle' hp0 hp0').2
    | false => exact (lnRatioMilli_eq (by omega) (by omega) (by omega) (by omega)).2
  · dsimp only
    split <;> split <;> omega
  · dsimp only
    split <;> split <;> omega
  · exact (by decide : (-1000000 : Int) ≤ 0 ∧ (0 : Int) ≤ 1000000)

theorem sprtPush_sound {s : Sprt} (h : s.Sound) (good : Bool) : (sprtPush s good).1.Sound := by
  refine ⟨h.reject, h.accept, h.down, h.up, h.delta, h.order, h.limit, ?_⟩
  change -1000000 ≤ qnClamp (s.llr + s.delta good) (-1000000) 1000000 ∧
    qnClamp (s.llr + s.delta good) (-1000000) 1000000 ≤ 1000000
  unfold qnClamp
  omega

theorem sprtRun_sound {s : Sprt} (h : s.Sound) (outs : List Bool) : (sprtRun s outs).1.Sound := by
  induction outs generalizing s with
  | nil => exact h
  | cons good outs ih => exact ih (sprtPush_sound h good)

/-- The sum fits in 32 bits before it is clamped. -/
theorem Sprt.Sound.fits {s : Sprt} (h : s.Sound) (good : Bool) :
    -(2 ^ 31) ≤ s.llr + s.delta good ∧ s.llr + s.delta good < 2 ^ 31 := by
  have hllr := h.llr
  have hdelta := h.delta good
  omega

theorem sprtStatus_early {s : Sprt} (h : s.n < s.nmin) : sprtStatus s = .continue := by
  rw [sprtStatus, if_pos h]

theorem sprtStatus_late {s : Sprt} (hs : s.Sound) (h : s.nmax ≤ s.n) : sprtStatus s ≠ .continue := by
  have horder := hs.order
  unfold sprtStatus
  rw [if_neg (by omega)]
  split
  next => decide
  next =>
    split
    next => decide
    next =>
      split
      next => decide
      next => decide

/-- A run keeps the parameters and counts its outcomes, up to what sixteen bits hold. -/
structure Sprt.Counts (s t : Sprt) (outs : List Bool) : Prop where
  up : t.up = s.up
  down : t.down = s.down
  nmin : t.nmin = s.nmin
  nmax : t.nmax = s.nmax
  n : t.n = min (s.n + outs.length) 65535
  good : t.good = min (s.good + outs.count true) 65535

/-- A counter that stops at its cap may be stopped on the way. -/
theorem capped_add (a b c cap : Nat) : min (min (a + b) cap + c) cap = min (a + (b + c)) cap := by
  omega

theorem sprtPush_counts {s : Sprt} (hn : s.n ≤ 65535) (hg : s.good ≤ 65535) (good : Bool) :
    s.Counts (sprtPush s good).1 [good] := by
  refine ⟨rfl, rfl, rfl, rfl, ?_, ?_⟩
  · change (if s.n < 0xFFFF then s.n + 1 else s.n) = min (s.n + 1) 65535
    split <;> omega
  · change (if good ∧ s.good < 0xFFFF then s.good + 1 else s.good) = _
    cases good with
    | true =>
      change (if true = true ∧ s.good < 0xFFFF then s.good + 1 else s.good) = min (s.good + 1) 65535
      simp only [true_and]
      split <;> omega
    | false =>
      change _ = min s.good 65535
      rw [if_neg (fun h => Bool.false_ne_true h.1), Nat.min_eq_left hg]

theorem sprtRun_counts {s : Sprt} (hn : s.n ≤ 65535) (hg : s.good ≤ 65535) (outs : List Bool) :
    s.Counts (sprtRun s outs).1 outs := by
  induction outs generalizing s with
  | nil => exact ⟨rfl, rfl, rfl, rfl, (Nat.min_eq_left hn).symm, (Nat.min_eq_left hg).symm⟩
  | cons good outs ih =>
    have hpush := sprtPush_counts hn hg good
    have hrest := ih (hpush.n ▸ Nat.min_le_right _ _) (hpush.good ▸ Nat.min_le_right _ _)
    have hlength : (good :: outs).length = [good].length + outs.length := @List.length_append Bool [good] outs
    have hcount : (good :: outs).count true = [good].count true + outs.count true :=
      @List.count_append Bool _ true [good] outs
    refine ⟨hrest.up.trans hpush.up, hrest.down.trans hpush.down, hrest.nmin.trans hpush.nmin,
      hrest.nmax.trans hpush.nmax, hrest.n.trans ?_, hrest.good.trans ?_⟩
    · rw [hpush.n, hlength, capped_add]
    · rw [hpush.good, hcount, capped_add]

theorem sprtRun_append (s : Sprt) (outs more : List Bool) :
    sprtRun s (outs ++ more) =
      ((sprtRun (sprtRun s outs).1 more).1, (sprtRun s outs).2 ++ (sprtRun (sprtRun s outs).1 more).2) := by
  induction outs generalizing s with
  | nil => rfl
  | cons good outs ih => simp only [List.cons_append, sprtRun, ih]

/-- Two states of the same test, of which one has the better walk. -/
structure Sprt.Below (s t : Sprt) : Prop where
  up : t.up = s.up
  down : t.down = s.down
  accept : t.accept = s.accept
  reject : t.reject = s.reject
  n : t.n = s.n
  nmin : t.nmin = s.nmin
  nmax : t.nmax = s.nmax
  llr : s.llr ≤ t.llr

theorem sprtPush_below {s t : Sprt} (hs : s.Sound) (h : s.Below t) {good good' : Bool}
    (hgood : good = true → good' = true) : (sprtPush s good).1.Below (sprtPush t good').1 := by
  have hdelta : s.delta good ≤ t.delta good' := by
    unfold Sprt.delta
    rw [h.up, h.down]
    cases good with
    | true =>
      rw [hgood rfl]
    | false =>
      cases good' with
      | true => exact hs.down.trans hs.up
      | false => exact le_refl _
  refine ⟨h.up, h.down, h.accept, h.reject, ?_, h.nmin, h.nmax, qnClamp_mono (add_le_add h.llr hdelta)⟩
  change (if t.n < _ then _ else _) = if s.n < _ then _ else _
  rw [h.n]

theorem sprtRun_below {s t : Sprt} (hs : s.Sound) (h : s.Below t) {outs outs' : List Bool}
    (hout : List.Forall₂ (fun a b => a = true → b = true) outs outs') :
    (sprtRun s outs).1.Below (sprtRun t outs').1 := by
  induction hout generalizing s t with
  | nil => exact h
  | cons hgood _ ih => exact ih (sprtPush_sound hs _) (sprtPush_below hs h hgood)

theorem sprtStatus_accept_iff {s : Sprt} (hs : s.Sound) :
    sprtStatus s = .accept ↔ s.nmin ≤ s.n ∧ (s.accept ≤ s.llr ∨ s.nmax ≤ s.n ∧ 0 ≤ s.llr) := by
  have hreject := hs.reject
  unfold sprtStatus
  split
  next => simp only [reduceCtorEq, false_iff]; omega
  next =>
    split
    next => simp only [true_iff]; omega
    next =>
      split
      next => simp only [reduceCtorEq, false_iff]; omega
      next =>
        split
        next =>
          split
          next => simp only [true_iff]; omega
          next => simp only [reduceCtorEq, false_iff]; omega
        next => simp only [reduceCtorEq, false_iff]; omega

theorem sprtStatus_reject_iff {s : Sprt} (hs : s.Sound) :
    sprtStatus s = .reject ↔ s.nmin ≤ s.n ∧ (s.llr ≤ s.reject ∨ s.nmax ≤ s.n ∧ s.llr < 0) := by
  have hreject := hs.reject
  have haccept := hs.accept
  unfold sprtStatus
  split
  next => simp only [reduceCtorEq, false_iff]; omega
  next =>
    split
    next => simp only [reduceCtorEq, false_iff]; omega
    next =>
      split
      next => simp only [true_iff]; omega
      next =>
        split
        next =>
          split
          next => simp only [reduceCtorEq, false_iff]; omega
          next => simp only [true_iff]; omega
        next => simp only [reduceCtorEq, false_iff]; omega

/-- The better walk is accepted where the worse one is, and rejected only where the worse one is. -/
theorem Sprt.Below.status {s t : Sprt} (hs : s.Sound) (ht : t.Sound) (h : s.Below t) :
    (sprtStatus s = .accept → sprtStatus t = .accept) ∧ (sprtStatus t = .reject → sprtStatus s = .reject) := by
  have hllr := h.llr
  rw [sprtStatus_accept_iff hs, sprtStatus_accept_iff ht, sprtStatus_reject_iff hs, sprtStatus_reject_iff ht, h.n,
    h.nmin, h.nmax, h.accept, h.reject]
  omega

/-- The walk of a test: a push adds its outcome and clamps, counts it and answers the status. -/
structure Sprt.Walks (s : Sprt) (outs : List Bool) : Prop where
  n : (sprtRun s outs).1.n = min outs.length 65535
  good : (sprtRun s outs).1.good = min (outs.count true) 65535
  early : outs.length < s.nmin → sprtStatus (sprtRun s outs).1 = .continue
  late : s.nmax ≤ outs.length → sprtStatus (sprtRun s outs).1 ≠ .continue
  fits : ∀ good : Bool, -(2 ^ 31) ≤ (sprtRun s outs).1.llr + (if good then s.up else s.down) ∧
    (sprtRun s outs).1.llr + (if good then s.up else s.down) < 2 ^ 31
  llr : ∀ good : Bool, (sprtRun s (outs ++ [good])).1.llr =
    min (max ((sprtRun s outs).1.llr + if good then s.up else s.down) (-1000000)) 1000000
  answer : ∀ good, (sprtRun s (outs ++ [good])).2 =
    (sprtRun s outs).2 ++ [sprtStatus (sprtRun s (outs ++ [good])).1]

theorem Sprt.Sound.walks {s : Sprt} (hs : s.Sound) (hn : s.n = 0) (hg : s.good = 0) (outs : List Bool) :
    s.Walks outs := by
  have hrun := sprtRun_sound hs outs
  have hcounts := sprtRun_counts (by omega : s.n ≤ 65535) (by omega : s.good ≤ 65535) outs
  have hlength := hcounts.n
  have hcount := hcounts.good
  have hlimit := hs.limit
  have horder := hs.order
  have hdelta : ∀ good, (sprtRun s outs).1.delta good = if good then s.up else s.down := fun good => by
    rw [Sprt.delta, hcounts.up, hcounts.down]
  rw [hn, Nat.zero_add] at hlength
  rw [hg, Nat.zero_add] at hcount
  refine ⟨hlength, hcount, fun h => sprtStatus_early ?_, fun h => sprtStatus_late hrun ?_, fun good => ?_,
    fun good => ?_, fun good => ?_⟩
  · rw [hlength, hcounts.nmin]
    omega
  · rw [hlength, hcounts.nmax]
    omega
  · rw [← hdelta]
    exact hrun.fits good
  · rw [← hdelta, sprtRun_append]
    rfl
  · rw [sprtRun_append]
    rfl

/-- The test has sound thresholds, decides between its two counts without an overflow, and is monotone. -/
theorem sprt_monotone (p0 p1 alpha beta : UInt32) (nmin nmax : UInt16) :
    let s : Sprt := sprtInit p0 p1 alpha beta nmin nmax
    (s.reject < 0 ∧ 0 < s.accept) ∧ (s.down ≤ 0 ∧ 0 ≤ s.up) ∧
      (s.nmin = max nmin.toNat 1 ∧ s.nmax = max nmax.toNat s.nmin) ∧ (∀ outs, s.Walks outs) ∧
      ∀ worse better, List.Forall₂ (fun a b => a = true → b = true) worse better →
        (sprtRun s worse).1.llr ≤ (sprtRun s better).1.llr ∧
        (sprtStatus (sprtRun s worse).1 = .accept → sprtStatus (sprtRun s better).1 = .accept) ∧
        (sprtStatus (sprtRun s better).1 = .reject → sprtStatus (sprtRun s worse).1 = .reject) := by
  intro s
  have hs : s.Sound := sprtInit_sound p0 p1 alpha beta nmin nmax
  have hnmin : s.nmin = max nmin.toNat 1 := by
    change (if nmin.toNat ≠ 0 then nmin.toNat else 1) = max nmin.toNat 1
    split <;> omega
  have hnmax : s.nmax = max nmax.toNat s.nmin := by
    change (if s.nmin < nmax.toNat then nmax.toNat else s.nmin) = max nmax.toNat s.nmin
    split <;> omega
  refine ⟨⟨hs.reject, hs.accept⟩, ⟨hs.down, hs.up⟩, ⟨hnmin, hnmax⟩, hs.walks rfl rfl, fun worse better h => ?_⟩
  have hbelow := sprtRun_below hs ⟨rfl, rfl, rfl, rfl, rfl, rfl, rfl, le_refl _⟩ h
  exact ⟨hbelow.llr, hbelow.status (sprtRun_sound hs worse) (sprtRun_sound hs better)⟩

end Walk

end Qanat
