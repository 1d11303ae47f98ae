import Qanat.EngineStart
import Qanat.General.Bucket
import Mathlib.Algebra.BigOperators.Group.Finset.Basic
import Mathlib.Algebra.BigOperators.Group.Finset.Piecewise
import Mathlib.Algebra.Order.BigOperators.Group.Finset
import Mathlib.Algebra.BigOperators.Ring.Finset

namespace Qanat

/-- The fields of `qn_worker` that limit its rate. -/
structure RateLimit where
  ratePerSec : Nat
  tokens : Nat
  tokenTsMs : Nat

/-- `tokens_ready`, in 64-bit words. -/
def tokensReady (w : RateLimit) (nowMs : Nat) : Bool × RateLimit :=
  if w.ratePerSec = 0 then (true, w)
  else
    let w :=
      if w.tokenTsMs < nowMs then
        let add := (nowMs - w.tokenTsMs) * w.ratePerSec % 2 ^ 64 * 1024 % 2 ^ 64 / 1000
        { w with tokens := min ((w.tokens + add) % 2 ^ 64) (w.ratePerSec * 1024), tokenTsMs := nowMs }
      else w
    (1024 ≤ w.tokens, w)

def tokensDebit (w : RateLimit) : RateLimit :=
  if w.ratePerSec ≠ 0 ∧ 1024 ≤ w.tokens then { w with tokens := w.tokens - 1024 } else w

/-- A turn of the loop in `worker_fill`: the clock, and whether a job is drawn and its probe launched. -/
structure FillTurn where
  nowMs : Nat
  launches : Bool

/-- What a turn of the loop in `worker_fill` does to the limiter, and whether it launches. -/
def fillTurn (w : RateLimit) (a : FillTurn) : Bool × RateLimit :=
  let (ready, w) := tokensReady w a.nowMs
  if ready = true ∧ a.launches = true then (true, tokensDebit w) else (false, w)

/-- The share of the rate that `qn_engine_start` gives a worker. -/
def workerRate (rate nworkers i : Nat) : Nat :=
  if rate ≠ 0 then rate / nworkers + if i < rate % nworkers then 1 else 0 else 0

def rateStart (rate nworkers tStartMs i : Nat) : RateLimit :=
  ⟨workerRate rate nworkers i, workerRate rate nworkers i * 1024, tStartMs⟩

def engineRates (rate nworkers tStartMs : Nat) : List RateLimit :=
  (List.range nworkers).map (rateStart rate nworkers tStartMs)

/-- A turn of one worker among all. -/
def rateStep (ws : List RateLimit) (i : Nat) (a : FillTurn) : Bool × List RateLimit :=
  match ws[i]? with
  | none => (false, ws)
  | some w => ((fillTurn w a).1, ws.set i (fillTurn w a).2)

/-- The limiters behind a run of turns of any workers in any order. -/
def rateRun : List RateLimit → List (Nat × FillTurn) → List RateLimit
  | ws, [] => ws
  | ws, (i, a) :: acts => rateRun (rateStep ws i a).2 acts

/-- The launches of a run, each with its worker and its time. -/
def launchLog : List RateLimit → List (Nat × FillTurn) → List (Nat × Nat)
  | _, [] => []
  | ws, (i, a) :: acts =>
    if (rateStep ws i a).1 then (i, a.nowMs) :: launchLog (rateStep ws i a).2 acts
    else launchLog (rateStep ws i a).2 acts

/-- Whether the sums and products of `tokens_ready` stay within 64 bits. -/
def FitsWord (w : RateLimit) (nowMs : Nat) : Prop :=
  (nowMs - w.tokenTsMs) * w.ratePerSec * 1024 < 2 ^ 64 ∧
    w.tokens + (nowMs - w.tokenTsMs) * w.ratePerSec * 1024 / 1000 < 2 ^ 64 ∧ w.ratePerSec * 1024 < 2 ^ 64

section Worker

/-- What `tokens_ready` adds, as it comes out of 64-bit products. -/
def tokenGain (rate elapsed : Nat) : Nat :=
  elapsed * rate % 2 ^ 64 * 1024 % 2 ^ 64 / 1000

/-- A product that wraps only ever lowers what is added. -/
theorem tokenGain_le (rate elapsed : Nat) : 1000 * tokenGain rate elapsed ≤ rate * 1024 * elapsed := by
  unfold tokenGain
  calc 1000 * (elapsed * rate % 2 ^ 64 * 1024 % 2 ^ 64 / 1000)
      ≤ elapsed * rate % 2 ^ 64 * 1024 % 2 ^ 64 := Nat.mul_div_le _ _
    _ ≤ elapsed * rate % 2 ^ 64 * 1024 := Nat.mod_le _ _
    _ ≤ elapsed * rate * 1024 := Nat.mul_le_mul_right _ (Nat.mod_le _ _)
    _ = rate * 1024 * elapsed := by ring

/-- A limiter that meters, with no more tokens than it holds. -/
structure RateLimit.Metered (w : RateLimit) (rate : Nat) : Prop where
  rate_eq : w.ratePerSec = rate
  pos : 0 < rate
  lt : rate < 2 ^ 32
  tokens_le : w.tokens ≤ rate * 1024

def RateLimit.bucket (w : RateLimit) : Bucket.State :=
  ⟨w.tokens, w.tokenTsMs⟩

variable {w : RateLimit} {rate : Nat}

theorem tokensReady_eq (h : w.Metered rate) (nowMs : Nat) :
    (tokensReady w nowMs).2 = ⟨rate, (Bucket.refill (tokenGain rate) (rate * 1024) w.bucket nowMs).tokens,
        (Bucket.refill (tokenGain rate) (rate * 1024) w.bucket nowMs).stamp⟩ ∧
      (tokensReady w nowMs).1 =
        decide (1024 ≤ (Bucket.refill (tokenGain rate) (rate * 1024) w.bucket nowMs).tokens) := by
  obtain ⟨r, tokens, stamp⟩ := w
  obtain ⟨rfl, hpos, hlt, hle⟩ := h
  dsimp only at hpos hlt hle
  unfold tokensReady Bucket.refill RateLimit.bucket
  dsimp only
  rw [if_neg (by omega)]
  by_cases hnow : stamp < nowMs
  · have hgain : tokenGain r (nowMs - stamp) < 2 ^ 64 / 1000 + 1 := by
      unfold tokenGain
      exact Nat.lt_succ_of_le (Nat.div_le_div_right (Nat.mod_lt _ (by decide)).le)
    have hfit : (tokens + tokenGain r (nowMs - stamp)) % 2 ^ 64 = tokens + tokenGain r (nowMs - stamp) :=
      Nat.mod_eq_of_lt (by omega)
    unfold tokenGain at hfit
    rw [if_pos hnow, if_pos hnow, hfit]
    exact ⟨rfl, rfl⟩
  · rw [if_neg hnow, if_neg hnow]
    exact ⟨rfl, rfl⟩

/-- A turn of `worker_fill` is an attempt on a token bucket. -/
theorem fillTurn_eq (h : w.Metered rate) (a : FillTurn) :
    (fillTurn w a).1 = (Bucket.attempt (tokenGain rate) (rate * 1024) 1024 w.bucket a.nowMs a.launches).1 ∧
      (fillTurn w a).2.bucket =
        (Bucket.attempt (tokenGain rate) (rate * 1024) 1024 w.bucket a.nowMs a.launches).2 ∧
      (fillTurn w a).2.ratePerSec = rate := by
  obtain ⟨hstate, hready⟩ := tokensReady_eq h a.nowMs
  unfold fillTurn Bucket.attempt
  dsimp only
  rw [hready, hstate]
  generalize Bucket.refill (tokenGain rate) (rate * 1024) w.bucket a.nowMs = s
  by_cases hok : a.launches = true ∧ 1024 ≤ s.tokens
  · have hdebit : tokensDebit ⟨rate, s.tokens, s.stamp⟩ = ⟨rate, s.tokens - 1024, s.stamp⟩ :=
      if_pos ⟨Nat.ne_of_gt h.pos, hok.2⟩
    rw [if_pos ⟨decide_eq_true hok.2, hok.1⟩, if_pos hok, hdebit]
    exact ⟨rfl, rfl, rfl⟩
  · rw [if_neg fun hno => hok ⟨hno.2, of_decide_eq_true hno.1⟩, if_neg hok]
    exact ⟨rfl, rfl, rfl⟩

theorem RateLimit.Metered.fillTurn (h : w.Metered rate) (a : FillTurn) : (fillTurn w a).2.Metered rate := by
  obtain ⟨-, hstate, hrate⟩ := fillTurn_eq h a
  refine ⟨hrate, h.pos, h.lt, ?_⟩
  have := Bucket.attempt_le (tokenGain rate) (rate * 1024) 1024 (s := w.bucket) h.tokens_le a.nowMs a.launches
  rw [← hstate] at this
  exact this

end Worker

section Run

variable {rates : Nat → Nat} {ws : List RateLimit}

/-- Every worker meters at its own rate. -/
def AllMetered (rates : Nat → Nat) (ws : List RateLimit) : Prop :=
  ∀ (i : Nat) (w : RateLimit), ws[i]? = some w → w.Metered (rates i)

theorem AllMetered.step (h : AllMetered rates ws) (i : Nat) (a : FillTurn) : AllMetered rates (rateStep ws i a).2 := by
  unfold rateStep
  split
  next => exact h
  next w hw =>
    intro j v hv
    rw [List.getElem?_set] at hv
    split at hv
    next hij =>
      subst hij
      split at hv
      next =>
        obtain rfl := Option.some.inj hv
        exact (h i w hw).fillTurn a
      next => cases hv
    next => exact h j v hv

theorem AllMetered.run (h : AllMetered rates ws) (acts : List (Nat × FillTurn)) : AllMetered rates (rateRun ws acts) := by
  induction acts generalizing ws with
  | nil => exact h
  | cons x acts ih => exact ih (h.step x.1 x.2)

/-- The turns of one worker. -/
def turnsOf (i : Nat) (acts : List (Nat × FillTurn)) : List (Nat × Bool) :=
  (acts.filter (·.1 = i)).map fun x => (x.2.nowMs, x.2.launches)

def launchesOf (i : Nat) (log : List (Nat × Nat)) : List Nat :=
  (log.filter (·.1 = i)).map (·.2)

/-- The launches of a worker are what its own turns spend, whatever the others do in between. -/
theorem launchesOf_launchLog (h : AllMetered rates ws) {i : Nat} {w : RateLimit} (hw : ws[i]? = some w)
    (acts : List (Nat × FillTurn)) :
    launchesOf i (launchLog ws acts) =
      Bucket.spends (tokenGain (rates i)) (rates i * 1024) 1024 w.bucket (turnsOf i acts) := by
  induction acts generalizing ws w with
  | nil => rfl
  | cons x acts ih =>
    obtain ⟨j, a⟩ := x
    by_cases hj : j = i
    · subst hj
      have hstep : rateStep ws j a = ((fillTurn w a).1, ws.set j (fillTurn w a).2) := by
        unfold rateStep
        rw [hw]
      have hlt : j < ws.length := (List.getElem?_eq_some_iff.mp hw).1
      obtain ⟨hfst, hsnd, -⟩ := fillTurn_eq (h j w hw) a
      have hget : (rateStep ws j a).2[j]? = some (fillTurn w a).2 := by
        rw [hstep]
        exact List.getElem?_set_self hlt
      have hnext := ih (h.step j a) hget
      have hturns : turnsOf j ((j, a) :: acts) = (a.nowMs, a.launches) :: turnsOf j acts := by simp [turnsOf]
      rw [hturns, launchLog, Bucket.spends, ← hsnd, ← hfst, ← hnext, hstep]
      split
      next => simp [launchesOf]
      next => rfl
    · have hget : (rateStep ws j a).2[i]? = some w := by
        unfold rateStep
        split
        next => exact hw
        next => rw [List.getElem?_set_ne hj, hw]
      have hnext := ih (h.step j a) hget
      have hturns : turnsOf i ((j, a) :: acts) = turnsOf i acts := by simp [turnsOf, hj]
      rw [hturns, ← hnext, launchLog]
      split
      next => simp [launchesOf, hj]
      next => rfl

theorem rateStep_length (ws : List RateLimit) (i : Nat) (a : FillTurn) : (rateStep ws i a).2.length = ws.length := by
  unfold rateStep
  split
  next => rfl
  next => exact List.length_set

theorem rateRun_length (ws : List RateLimit) (acts : List (Nat × FillTurn)) : (rateRun ws acts).length = ws.length := by
  induction acts generalizing ws with
  | nil => rfl
  | cons x acts ih => exact (ih _).trans (rateStep_length ws x.1 x.2)

theorem launchLog_lt (ws : List RateLimit) (acts : List (Nat × FillTurn)) :
    ∀ l ∈ launchLog ws acts, l.1 < ws.length := by
  induction acts generalizing ws with
  | nil => simp [launchLog]
  | cons x acts ih =>
    obtain ⟨i, a⟩ := x
    have hnext := ih (rateStep ws i a).2
    rw [rateStep_length] at hnext
    unfold launchLog
    split
    next hlaunched =>
      refine List.forall_mem_cons.mpr ⟨?_, hnext⟩
      show i < ws.length
      by_contra hge
      unfold rateStep at hlaunched
      rw [List.getElem?_eq_none (Nat.not_lt.mp hge)] at hlaunched
      cases hlaunched
    next => exact hnext

open Finset in
/-- Launches counted worker by worker. -/
theorem countP_workers {log : List (Nat × Nat)} {n : Nat} (h : ∀ l ∈ log, l.1 < n) (p : Nat → Bool) :
    log.countP (fun l => p l.2) = ∑ i ∈ range n, (launchesOf i log).countP p := by
  induction log with
  | nil => simp [launchesOf]
  | cons x log ih =>
    have hx : x.1 < n := h x List.mem_cons_self
    have hone : ∀ i, (launchesOf i (x :: log)).countP p =
        (launchesOf i log).countP p + if x.1 = i then (if p x.2 then 1 else 0) else 0 := by
      intro i
      by_cases hi : x.1 = i
      · simp [launchesOf, hi, List.countP_cons]
      · simp [launchesOf, hi]
    rw [List.countP_cons, ih fun l hl => h l (List.mem_cons_of_mem _ hl)]
    simp only [hone]
    rw [sum_add_distrib, sum_ite_eq (range n) x.1, if_pos (mem_range.mpr hx)]

end Run

section Share

open Finset

theorem sum_lt_count (m k : Nat) : ∑ i ∈ range k, (if i < m then 1 else 0) = min k m := by
  induction k with
  | zero => simp
  | succ k ih =>
    rw [sum_range_succ, ih]
    split <;> omega

/-- The shares of the workers make up the rate. -/
theorem sum_workerRate {rate n : Nat} (hn : 0 < n) : ∑ i ∈ range n, workerRate rate n i = rate := by
  by_cases hz : rate = 0
  · subst hz
    simp [workerRate]
  · have hlt := Nat.mod_lt rate hn
    have hdiv := Nat.div_add_mod rate n
    unfold workerRate
    simp only [ne_eq, hz, not_false_eq_true, if_true]
    rw [sum_add_distrib, sum_lt_count, sum_const, card_range, Nat.min_eq_right hlt.le]
    exact hdiv

theorem workerRate_pos {rate n i : Nat} (hn : 0 < n) (hle : n ≤ rate) : 0 < workerRate rate n i := by
  have hdiv := Nat.div_pos hle hn
  unfold workerRate
  rw [if_pos (by omega)]
  omega

theorem workerRate_le {rate n i : Nat} (hn : 0 < n) (hi : i < n) : workerRate rate n i ≤ rate := by
  calc workerRate rate n i ≤ ∑ j ∈ range n, workerRate rate n j :=
        single_le_sum (fun _ _ => Nat.zero_le _) (mem_range.mpr hi)
    _ = rate := sum_workerRate hn

theorem engineInit_workers {cfg : EngineConfig} {topologyWorkers nofile perWorker : Nat} {nslots : List Nat}
    (h : engineInit cfg topologyWorkers nofile = some (perWorker, nslots)) (hrate : 1 ≤ cfg.rate) :
    0 < nslots.length ∧ nslots.length ≤ cfg.rate := by
  refine ⟨List.length_pos_iff.mpr (engineInit_slots h).1, ?_⟩
  obtain ⟨concurrency, -, heq⟩ := Option.map_eq_some_iff.mp h
  obtain ⟨-, rfl⟩ := Prod.mk.inj heq
  rw [List.length_map, List.length_range]
  refine (Nat.min_le_left _ _).trans ?_
  unfold requestedWorkers
  dsimp only
  split_ifs <;> omega

theorem engineRates_metered {rate n : Nat} (hn : 0 < n) (hle : n ≤ rate) (hlt : rate < 2 ^ 32) (tStartMs : Nat) :
    AllMetered (workerRate rate n) (engineRates rate n tStartMs) := by
  intro i w hw
  obtain ⟨hi, rfl⟩ := List.getElem?_eq_some_iff.mp hw
  unfold engineRates at hi ⊢
  rw [List.length_map, List.length_range] at hi
  rw [List.getElem_map, List.getElem_range]
  exact ⟨rfl, workerRate_pos hn hle, (workerRate_le hn hi).trans_lt hlt, Nat.le_refl _⟩

theorem launches_within {rate n : Nat} (hn : 0 < n) (hle : n ≤ rate) (hlt : rate < 2 ^ 32) (tStartMs : Nat)
    {acts : List (Nat × FillTurn)}
    (hclock : ∀ i, ((acts.filter (·.1 = i)).map (·.2.nowMs)).Pairwise (· ≤ ·)) (a d : Nat) :
    (launchLog (engineRates rate n tStartMs) acts).countP (fun l => a ≤ l.2 ∧ l.2 ≤ a + d) ≤
      rate + rate * d / 1000 := by
  have hlog := launchLog_lt (engineRates rate n tStartMs) acts
  have hlen : (engineRates rate n tStartMs).length = n := by simp [engineRates]
  rw [hlen] at hlog
  have hone : ∀ i ∈ range n, 1000 * (launchesOf i (launchLog (engineRates rate n tStartMs) acts)).countP
      (fun t => a ≤ t ∧ t ≤ a + d) ≤ 1000 * workerRate rate n i + workerRate rate n i * d := by
    intro i hi
    have hget : (engineRates rate n tStartMs)[i]? = some (rateStart rate n tStartMs i) := by
      simp [engineRates, mem_range.mp hi]
    have hmono : (turnsOf i acts).Pairwise (·.1 ≤ ·.1) := by
      have hc := hclock i
      rw [List.pairwise_map] at hc
      unfold turnsOf
      rw [List.pairwise_map]
      exact hc
    rw [launchesOf_launchLog (engineRates_metered hn hle hlt tStartMs) hget]
    have hwithin := Bucket.spends_within (tokenGain (workerRate rate n i)) (workerRate rate n i * 1024) 1024
      (tokenGain_le (workerRate rate n i)) hmono
      (show (rateStart rate n tStartMs i).bucket.tokens ≤ workerRate rate n i * 1024 from Nat.le_refl _) a d
    have hunit : workerRate rate n i * 1024 * d = 1024 * (workerRate rate n i * d) := by ring
    rw [hunit] at hwithin
    omega
  have hsum := sum_le_sum hone
  rw [← mul_sum, sum_add_distrib, ← mul_sum, ← sum_mul, sum_workerRate hn,
    ← countP_workers hlog (fun t => decide (a ≤ t ∧ t ≤ a + d))] at hsum
  omega

theorem fitsWord_iff {w : RateLimit} {rate : Nat} (h : w.Metered rate) (nowMs : Nat) :
    FitsWord w nowMs ↔ (nowMs - w.tokenTsMs) * w.ratePerSec < 2 ^ 54 := by
  have hle := h.tokens_le
  have hlt := h.lt
  unfold FitsWord
  rw [h.rate_eq]
  generalize (nowMs - w.tokenTsMs) * rate = product
  omega

/-- No interval sees more launches than a second's worth and what its length is worth. -/
theorem launches_within_rate {cfg : EngineConfig} {topologyWorkers nofile perWorker : Nat} {nslots : List Nat}
    (hinit : engineInit cfg topologyWorkers nofile = some (perWorker, nslots)) (hrate : 1 ≤ cfg.rate)
    (hlt : cfg.rate < 2 ^ 32) (tStartMs : Nat) {acts : List (Nat × FillTurn)}
    (hclock : ∀ i, ((acts.filter (·.1 = i)).map (·.2.nowMs)).Pairwise (· ≤ ·)) :
    ∑ i ∈ range nslots.length, workerRate cfg.rate nslots.length i = cfg.rate ∧
    (∀ a d, (launchLog (engineRates cfg.rate nslots.length tStartMs) acts).countP
      (fun l => a ≤ l.2 ∧ l.2 ≤ a + d) ≤ cfg.rate + cfg.rate * d / 1000) ∧
    ∀ w ∈ rateRun (engineRates cfg.rate nslots.length tStartMs) acts, ∀ nowMs,
      (FitsWord w nowMs ↔ (nowMs - w.tokenTsMs) * w.ratePerSec < 2 ^ 54) ∧
      (cfg.rate ≤ 2000000 → nowMs - w.tokenTsMs < 2 ^ 33 → FitsWord w nowMs) := by
  obtain ⟨hn, hle⟩ := engineInit_workers hinit hrate
  refine ⟨sum_workerRate hn, launches_within hn hle hlt tStartMs hclock, fun w hw nowMs => ?_⟩
  obtain ⟨i, hget⟩ := List.mem_iff_getElem?.mp hw
  have hmetered := (engineRates_metered hn hle hlt tStartMs).run acts i w hget
  have hiff := fitsWord_iff hmetered nowMs
  have hi : i < nslots.length := by
    have := (List.getElem?_eq_some_iff.mp hget).1
    rw [rateRun_length] at this
    simpa [engineRates] using this
  refine ⟨hiff, fun hmax helapsed => hiff.mpr ?_⟩
  have hrate : w.ratePerSec ≤ 2000000 := by
    rw [hmetered.rate_eq]
    exact (workerRate_le hn hi).trans hmax
  calc (nowMs - w.tokenTsMs) * w.ratePerSec ≤ 2 ^ 33 * 2000000 := Nat.mul_le_mul helapsed.le hrate
    _ < 2 ^ 54 := by decide

def fullRateConfig : EngineConfig where
  workers := 1
  rate := 2000000
  concurrency := 16
  selectBackend := false

theorem launches_within_full : engineInit fullRateConfig 1 1024 = some (16, [16]) ∧
    ∀ a d, (launchLog (engineRates 2000000 1 0) [(0, ⟨3, true⟩), (0, ⟨5, true⟩)]).countP
      (fun l => a ≤ l.2 ∧ l.2 ≤ a + d) ≤ 2000000 + 2000000 * d / 1000 := by
  have hinit : engineInit fullRateConfig 1 1024 = some (16, [16]) := by decide
  have hclock : ∀ i : Nat, (([(0, ⟨3, true⟩), (0, ⟨5, true⟩)].filter fun x : Nat × FillTurn => x.1 = i).map
      (·.2.nowMs)).Pairwise (· ≤ ·) := by
    intro i
    by_cases hi : 0 = i
    · subst hi
      decide
    · simp [hi]
  exact ⟨hinit, (launches_within_rate hinit (by decide) (by decide) 0 hclock).2.1⟩

/-- After less than `2 ^ 40` ms of rest the product of a full rate is past 64 bits. -/
theorem tokens_overflow : engineInit fullRateConfig 1 1024 = some (16, [16]) ∧
    ∃ w ∈ engineRates 2000000 1 0, 9007199255 - w.tokenTsMs < 2 ^ 40 ∧ w.ratePerSec ≤ 2000000 ∧
      ¬FitsWord w 9007199255 := by
  refine ⟨by decide, rateStart 2000000 1 0 0, by simp [engineRates], by decide, by decide, fun h => ?_⟩
  exact absurd h.1 (by decide)

end Share

end Qanat
