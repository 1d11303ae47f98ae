import Qanat.CfRecord
import Mathlib.Order.Lattice

namespace Qanat

theorem timeQuality_le (top span us : Nat) : timeQuality top span us ≤ top := by
  unfold timeQuality
  split
  next => exact Nat.zero_le _
  next => exact Nat.sub_le _ _

/-- A shorter time is worth no less. -/
theorem timeQuality_anti (top span : Nat) {a b : Nat} (h : b ≤ a) :
    timeQuality top span a ≤ timeQuality top span b := by
  unfold timeQuality
  by_cases ha : span ≤ a
  · rw [if_pos ha]
    exact Nat.zero_le _
  · have hb : ¬ span ≤ b := by omega
    rw [if_neg ha, if_neg hb]
    exact Nat.sub_le_sub_left (Nat.div_le_div_right (Nat.mul_le_mul_right _ h)) _

/-- A measured time has fallen, or it is as it was. -/
def Falls (a b : UInt32) : Prop :=
  b = a ∨ b ≠ 0 ∧ b ≤ a

theorem measured_mono {q : Nat → Nat} (hq : ∀ {a b : Nat}, b ≤ a → q a ≤ q b) {a b : UInt32} (h : Falls a b) :
    (if a = 0 then 0 else q a.toNat) ≤ if b = 0 then 0 else q b.toNat := by
  obtain rfl | ⟨hb, hle⟩ := h
  · exact Nat.le_refl _
  · rw [if_neg hb]
    split
    next => exact Nat.zero_le _
    next => exact hq (UInt32.le_iff_toNat_le.mp hle)

theorem medianQuality_mono {a b : UInt32} (h : Falls a b) : medianQuality a ≤ medianQuality b :=
  measured_mono (timeQuality_anti 1500 600000) h

theorem p90Quality_mono {a b : UInt32} (h : Falls a b) : p90Quality a ≤ p90Quality b :=
  measured_mono (timeQuality_anti 1000 900000) h

theorem measured_le {q : Nat → Nat} {top : Nat} (hq : ∀ us, q us ≤ top) (a : UInt32) :
    (if a = 0 then 0 else q a.toNat) ≤ top := by
  split
  next => exact Nat.zero_le _
  next => exact hq _

theorem lossQuality_anti {a b : UInt8} (h : b ≤ a) : lossQuality a ≤ lossQuality b := by
  have hle := UInt8.le_iff_toNat_le.mp h
  unfold lossQuality
  split
  next => exact Nat.zero_le _
  next ha =>
    rw [if_neg (by omega)]
    omega

theorem lossQuality_le (a : UInt8) : lossQuality a ≤ 700 := by
  unfold lossQuality
  split
  next => exact Nat.zero_le _
  next => omega

theorem edgePoints_bounds {rung : UInt8} {n : Nat} (h : edgePoints rung = some n) : 800 ≤ n ∧ n ≤ 4000 := by
  unfold edgePoints at h
  repeat' split at h
  all_goals
    cases h
    try decide

/-- The rungs that have points. -/
def validRung (rung : UInt8) : Prop :=
  rungTcp ≤ rung ∧ rung < rungCount

theorem validRung_cases {rung : UInt8} (h : validRung rung) :
    rung = rungTcp ∨ rung = rungTls ∨ rung = rungHttp ∨ rung = rungEdge ∨ rung = rungFlowing ∨ rung = rungStable := by
  obtain ⟨hlo, hhi⟩ := h
  have hlo' : 1 ≤ rung.toNat := UInt8.le_iff_toNat_le.mp hlo
  have hhi' : rung.toNat < 7 := UInt8.lt_iff_toNat_lt.mp hhi
  have heq (n : UInt8) (hn : rung.toNat = n.toNat) : rung = n := UInt8.toNat_inj.mp hn
  obtain h | h | h | h | h | h : rung.toNat = 1 ∨ rung.toNat = 2 ∨ rung.toNat = 3 ∨ rung.toNat = 4 ∨ rung.toNat = 5 ∨
      rung.toNat = 6 := by omega
  · exact .inl (heq _ h)
  · exact .inr (.inl (heq _ h))
  · exact .inr (.inr (.inl (heq _ h)))
  · exact .inr (.inr (.inr (.inl (heq _ h))))
  · exact .inr (.inr (.inr (.inr (.inl (heq _ h)))))
  · exact .inr (.inr (.inr (.inr (.inr (heq _ h)))))

/-- The points of a rung, as its place among the rungs. -/
def rungPoints (rung : UInt8) : Nat :=
  [0, 800, 2200, 2800, 3400, 3700, 4000].getD rung.toNat 0

theorem edgePoints_valid {rung : UInt8} (h : validRung rung) : edgePoints rung = some (rungPoints rung) := by
  obtain rfl | rfl | rfl | rfl | rfl | rfl := validRung_cases h <;> rfl

theorem rungPoints_mono {a b : UInt8} (ha : validRung a) (hb : validRung b) (h : a ≤ b) :
    rungPoints a ≤ rungPoints b := by
  obtain rfl | rfl | rfl | rfl | rfl | rfl := validRung_cases ha <;>
  · obtain rfl | rfl | rfl | rfl | rfl | rfl := validRung_cases hb <;> first | decide | exact absurd h (by decide)

/-- A record that is scored: it succeeded, on a rung that has points. -/
structure CfRecord.Scored (r : CfRecord) : Prop where
  success : r.terminalOutcome = termSuccess
  rung : validRung r.highestRungReached

/-- The bounds of the components. -/
structure ScoreParts.Bounded (p : ScoreParts) : Prop where
  edge_pos : 800 ≤ p.edge
  edge : p.edge ≤ 4500
  latency : p.latency ≤ 2500
  stability : p.stability ≤ 1500
  confidence : p.confidence ≤ 1000
  throughput : p.throughput ≤ 1000
  tunnel : p.tunnel ≤ 30000

variable {r s : CfRecord} {p q : ScoreParts} {policy : RankPolicy}

theorem scoreParts_bounded (h : scoreParts r = some p) : p.Bounded ∧ p.tunnel = tunnelPoints r.tunnelState := by
  unfold scoreParts at h
  split at h
  next => cases h
  next =>
    cases hedge : edgePoints r.highestRungReached with
    | none => simp [hedge] at h
    | some edge =>
      simp only [hedge] at h
      obtain rfl := Option.some.inj h
      obtain ⟨hlo, hhi⟩ := edgePoints_bounds hedge
      have hmed : medianQuality r.rttMedUs ≤ 1500 := measured_le (timeQuality_le 1500 600000) _
      have hp90 : p90Quality r.rttP90Us ≤ 1000 := measured_le (timeQuality_le 1000 900000) _
      have hjitter : jitterQuality r.rttDeltaMeanUs ≤ 750 := timeQuality_le _ _ _
      have hloss := lossQuality_le r.lossPct
      refine ⟨⟨?_, ?_, ?_, ?_, ?_, ?_, ?_⟩, rfl⟩
      · exact Nat.le_add_right_of_le hlo
      · dsimp only
        split <;> omega
      · exact Nat.add_le_add hmed hp90
      · dsimp only
        split <;> omega
      · dsimp only
        split <;> omega
      · dsimp only
        split <;> omega
      · dsimp only
        unfold tunnelPoints
        split
        next => decide
        next => split <;> decide

theorem CfRecord.Scored.parts (h : r.Scored) : ∃ p, scoreParts r = some p := by
  unfold scoreParts
  rw [if_neg (not_not.mpr h.success), edgePoints_valid h.rung]
  exact ⟨_, rfl⟩

/-- What the other components add to a tunnel's never comes up to the next tunnel's. -/
theorem weigh_bounds (h : p.Bounded) (policy : RankPolicy) :
    p.tunnel + 800 ≤ p.weigh policy ∧ p.weigh policy ≤ p.tunnel + 10750 := by
  obtain ⟨hpos, he, hl, hs, hc, ht, -⟩ := h
  cases policy <;> simp only [ScoreParts.weigh] <;> omega

theorem score_toNat (h : scoreParts r = some p) (policy : RankPolicy) :
    (cfScorePolicy r policy).1.toNat = p.weigh policy := by
  obtain ⟨hb, -⟩ := scoreParts_bounded h
  have hw := (weigh_bounds hb policy).2
  have ht := hb.tunnel
  unfold cfScorePolicy
  rw [h]
  exact UInt32.toNat_ofNat_of_lt' (Nat.lt_of_le_of_lt (by omega) (by decide : 40750 < 2 ^ 32))

/-- A record with a better tunnel has more points, whatever the rest of the two. -/
theorem score_lt_of_tunnel (hr : r.Scored) (hs : s.Scored)
    (h : tunnelPoints r.tunnelState + 15000 ≤ tunnelPoints s.tunnelState) (policy : RankPolicy) :
    (cfScorePolicy r policy).1 < (cfScorePolicy s policy).1 := by
  obtain ⟨p, hp⟩ := hr.parts
  obtain ⟨q, hq⟩ := hs.parts
  obtain ⟨hpb, hpt⟩ := scoreParts_bounded hp
  obtain ⟨hqb, hqt⟩ := scoreParts_bounded hq
  have hhi := (weigh_bounds hpb policy).2
  have hlo := (weigh_bounds hqb policy).1
  rw [UInt32.lt_iff_toNat_lt, score_toNat hp, score_toNat hq]
  omega

/-- A record that measured no worse than another, with the same tunnel and all else the same. -/
structure Improves (r s : CfRecord) : Prop where
  tunnel : s.tunnelState = r.tunnelState
  verified : s.verified = r.verified
  colo : s.colo = r.colo
  idleHeld : s.idleHeldMs = r.idleHeldMs
  rung : r.highestRungReached ≤ s.highestRungReached
  confidence : r.confidence ≤ s.confidence
  throughput : r.kbps ≤ s.kbps
  loss : s.lossPct ≤ r.lossPct
  jitter : s.rttDeltaMeanUs ≤ r.rttDeltaMeanUs
  median : Falls r.rttMedUs s.rttMedUs
  p90 : Falls r.rttP90Us s.rttP90Us

/-- Components that are no less. -/
structure ScoreParts.Le (p q : ScoreParts) : Prop where
  edge : p.edge ≤ q.edge
  latency : p.latency ≤ q.latency
  stability : p.stability ≤ q.stability
  confidence : p.confidence ≤ q.confidence
  throughput : p.throughput ≤ q.throughput
  tunnel : p.tunnel = q.tunnel

theorem weigh_mono (h : p.Le q) (policy : RankPolicy) : p.weigh policy ≤ q.weigh policy := by
  obtain ⟨he, hl, hs, hc, ht, htun⟩ := h
  cases policy <;> simp only [ScoreParts.weigh] <;> omega

theorem stable_held_mono (held : UInt32) {a b : UInt8} (hb : validRung b) (h : a ≤ b) :
    (if a = rungStable ∧ held ≠ 0 then 50 else 0) ≤ if b = rungStable ∧ held ≠ 0 then 50 else 0 := by
  by_cases ha : a = rungStable ∧ held ≠ 0
  · have hstable : b = rungStable := by
      obtain rfl | rfl | rfl | rfl | rfl | rfl := validRung_cases hb <;> rw [ha.1] at h <;>
        first | rfl | exact absurd h (by decide)
    rw [if_pos ha, if_pos ⟨hstable, ha.2⟩]
  · rw [if_neg ha]
    exact Nat.zero_le _

theorem scoreParts_mono (hr : r.Scored) (hs : s.Scored) (h : Improves r s) (hp : scoreParts r = some p)
    (hq : scoreParts s = some q) : p.Le q := by
  unfold scoreParts at hp hq
  rw [if_neg (not_not.mpr hr.success), edgePoints_valid hr.rung] at hp
  rw [if_neg (not_not.mpr hs.success), edgePoints_valid hs.rung] at hq
  obtain rfl := Option.some.inj hp
  obtain rfl := Option.some.inj hq
  have hconf := UInt16.le_iff_toNat_le.mp h.confidence
  have hkbps := UInt32.le_iff_toNat_le.mp h.throughput
  have hstable := stable_held_mono r.idleHeldMs hs.rung h.rung
  refine ⟨?_, ?_, ?_, ?_, ?_, ?_⟩
  · dsimp only
    rw [h.verified, h.colo]
    exact Nat.add_le_add_right (rungPoints_mono hr.rung hs.rung h.rung) _
  · exact Nat.add_le_add (medianQuality_mono h.median) (p90Quality_mono h.p90)
  · dsimp only
    rw [h.idleHeld]
    refine Nat.add_le_add (Nat.add_le_add ?_ (lossQuality_anti h.loss)) hstable
    exact timeQuality_anti _ _ (UInt32.le_iff_toNat_le.mp h.jitter)
  · dsimp only
    split <;> split <;> omega
  · dsimp only
    split <;> split <;> omega
  · dsimp only
    rw [h.tunnel]

theorem score_mono (hr : r.Scored) (hs : s.Scored) (h : Improves r s) (policy : RankPolicy) :
    (cfScorePolicy r policy).1 ≤ (cfScorePolicy s policy).1 := by
  obtain ⟨p, hp⟩ := hr.parts
  obtain ⟨q, hq⟩ := hs.parts
  rw [UInt32.le_iff_toNat_le, score_toNat hp, score_toNat hq]
  exact weigh_mono (scoreParts_mono hr hs h hp hq) policy

/-- The record's fields hold the components. -/
structure StoresParts (s : CfRecord) (p : ScoreParts) : Prop where
  edge : s.scoreEdge.toNat = p.edge
  latency : s.scoreLatency.toNat = p.latency
  stability : s.scoreStability.toNat = p.stability
  confidence : s.scoreConfidence.toNat = p.confidence
  throughput : s.scoreThroughput.toNat = p.throughput
  tunnel : s.scoreTunnel.toNat = p.tunnel

theorem score_stores (h : scoreParts r = some p) (policy : RankPolicy) : StoresParts (cfScorePolicy r policy).2 p := by
  obtain ⟨⟨-, he, hl, hs, hc, ht, htun⟩, -⟩ := scoreParts_bounded h
  have hfit {n : Nat} (hn : n ≤ 30000) : (UInt16.ofNat n).toNat = n :=
    UInt16.toNat_ofNat_of_lt' (Nat.lt_of_le_of_lt hn (by decide))
  unfold cfScorePolicy
  rw [h]
  exact ⟨hfit (by omega), hfit (by omega), hfit (by omega), hfit (by omega), hfit (by omega), hfit htun⟩

/-- A tunnel that has been tried neither way, or that could not be tried. -/
def tunnelOpen (state : UInt8) : Prop :=
  state = tunnelUntested ∨ tunnelStateSkipped state = true

theorem tunnelPoints_open {state : UInt8} (h : tunnelOpen state) : tunnelPoints state = 15000 := by
  unfold tunnelOpen tunnelStateSkipped at h
  rw [Bool.or_eq_true, decide_eq_true_eq, decide_eq_true_eq] at h
  obtain rfl | rfl | rfl := h <;> rfl

theorem tunnelPoints_failed {state : UInt8} (h : tunnelStateFailed state = true) : tunnelPoints state = 0 := by
  unfold tunnelPoints
  rw [if_neg ?_, if_pos h]
  rintro rfl
  exact absurd h (by decide)

/-- The order of scores under every policy. -/
theorem score_order (policy : RankPolicy) :
    (∀ r s : CfRecord, r.Scored → s.Scored → s.tunnelState = tunnelPassed → tunnelOpen r.tunnelState →
      (cfScorePolicy r policy).1 < (cfScorePolicy s policy).1) ∧
    (∀ r s : CfRecord, r.Scored → s.Scored → tunnelOpen s.tunnelState → tunnelStateFailed r.tunnelState = true →
      (cfScorePolicy r policy).1 < (cfScorePolicy s policy).1) ∧
    (∀ r s : CfRecord, r.Scored → s.Scored → Improves r s → (cfScorePolicy r policy).1 ≤ (cfScorePolicy s policy).1) ∧
    (∀ r : CfRecord, r.terminalOutcome ≠ termSuccess → (cfScorePolicy r policy).1 = 0) ∧
    ∀ (r : CfRecord) (p : ScoreParts), scoreParts r = some p →
      StoresParts (cfScorePolicy r policy).2 p ∧ (cfScorePolicy r policy).1.toNat = p.weigh policy := by
  refine ⟨fun r s hr hs hpassed hopen => ?_, fun r s hr hs hopen hfailed => ?_,
    fun r s hr hs h => score_mono hr hs h policy, fun r hr => ?_,
    fun r p h => ⟨score_stores h policy, score_toNat h policy⟩⟩
  · refine score_lt_of_tunnel hr hs ?_ policy
    rw [tunnelPoints_open hopen, hpassed]
    decide
  · refine score_lt_of_tunnel hr hs ?_ policy
    rw [tunnelPoints_open hopen, tunnelPoints_failed hfailed]
  · unfold cfScorePolicy scoreParts
    rw [if_pos hr]

/-- A record of a fast edge with a given tunnel. -/
def fastRecord (tunnel : UInt8) : CfRecord :=
  { addr := .v4 0, rttMedUs := 20000, rttP90Us := 30000, confidence := 0, rttDeltaMeanUs := 0, score := 0,
    scoreVersion := 0, scoreEdge := 0, scoreLatency := 0, scoreStability := 0, scoreConfidence := 0,
    scoreThroughput := 0, scoreTunnel := 0, highestRungReached := rungStable, terminalOutcome := termSuccess,
    lossPct := 0, colo := [70, 82, 65], kbps := 0, idleHeldMs := 0, verified := true, tunnelState := tunnel }

theorem fastRecord_scored (tunnel : UInt8) : (fastRecord tunnel).Scored :=
  ⟨rfl, (by decide : rungTcp ≤ rungStable), (by decide : rungStable < rungCount)⟩

theorem score_order_fast : (cfScorePolicy (fastRecord tunnelUntested) .latency).1 <
    (cfScorePolicy { fastRecord tunnelPassed with highestRungReached := rungTcp } .latency).1 :=
  (score_order .latency).1 _ _ (fastRecord_scored _)
    ⟨rfl, (by decide : rungTcp ≤ rungTcp), (by decide : rungTcp < rungCount)⟩ rfl (.inl rfl)

end Qanat
