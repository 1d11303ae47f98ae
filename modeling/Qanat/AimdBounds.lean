import Qanat.Aimd

namespace Qanat

theorem u32_of_lt {n : Nat} (h : n < 2 ^ 32) : u32 n = n :=
  Nat.mod_eq_of_lt h

theorem sub64_of_le {a b : Nat} (ha : a < 2 ^ 64) (h : b ≤ a) : sub64 a b = a - b := by
  unfold sub64
  omega

theorem clamp_bounds (v : Nat) {lo hi : Nat} (h : lo ≤ hi) : lo ≤ clamp v lo hi ∧ clamp v lo hi ≤ hi := by
  unfold clamp
  omega

/-- A window within its bounds, a deadline within its own, and a batch that the window limits. -/
structure Aimd.Sound (timeoutMs : Nat) (a : Aimd) : Prop where
  wmin_pos : 1 ≤ a.wmin
  wmin_le : a.wmin ≤ a.window
  window_le : a.window ≤ a.wmax
  wmax_le : a.wmax ≤ 4096
  floor_le : a.deadlineFloorMs ≤ a.deadlineMs
  deadline_le : a.deadlineMs ≤ timeoutMs
  batch : a.batchN < a.wmax
  timeouts : a.batchTimeouts ≤ a.batchN

/-- The base is the least of the round trips, and the average is not outside them. -/
structure Aimd.Learned (a : Aimd) (measured : List Nat) : Prop where
  fits : ∀ x ∈ measured, x ≠ 0 ∧ x ≤ rttMaxUs
  none : measured = [] → a.rttBaseUs = 0 ∧ a.rttEwmaUs = 0
  base : measured ≠ [] → a.rttBaseUs ∈ measured ∧ ∀ x ∈ measured, a.rttBaseUs ≤ x
  ewma : measured ≠ [] → a.rttBaseUs ≤ a.rttEwmaUs ∧ ∃ hi ∈ measured, a.rttEwmaUs ≤ hi

variable {a b : Aimd} {measured : List Nat} {timeoutMs rttUs nowMs : Nat} {timedOut : Bool}

/-- Only the fields that a round trip changes tell two windows apart. -/
structure Aimd.Alike (a b : Aimd) : Prop where
  window : b.window = a.window
  wmin : b.wmin = a.wmin
  wmax : b.wmax = a.wmax
  floor : b.deadlineFloorMs = a.deadlineFloorMs
  lastCut : b.lastCutMs = a.lastCutMs

theorem Aimd.Learned.le (h : a.Learned measured) : a.rttBaseUs ≤ rttMaxUs ∧ a.rttEwmaUs ≤ rttMaxUs := by
  by_cases hm : measured = []
  · obtain ⟨hb, he⟩ := h.none hm
    rw [hb, he]
    exact ⟨Nat.zero_le _, Nat.zero_le _⟩
  · obtain ⟨hb, -⟩ := h.base hm
    obtain ⟨-, hi, hhi, hle⟩ := h.ewma hm
    exact ⟨(h.fits _ hb).2, hle.trans (h.fits _ hhi).2⟩

theorem Aimd.Learned.same (h : a.Learned measured) (hb : b.rttBaseUs = a.rttBaseUs) (he : b.rttEwmaUs = a.rttEwmaUs) :
    b.Learned measured := by
  refine ⟨h.fits, ?_, ?_, ?_⟩
  · rw [hb, he]
    exact h.none
  · rw [hb]
    exact h.base
  · rw [hb, he]
    exact h.ewma

/-- An average of numbers that are not outside some bounds is not outside them either. -/
theorem aimdLearn_learned (h : a.Learned measured) (hne : rttUs ≠ 0) (hrtt : rttUs ≤ rttMaxUs) :
    (aimdLearn a rttUs).Learned (measured ++ [rttUs]) := by
  obtain ⟨hbase, hewma⟩ := h.le
  have hmax : rttMaxUs = 60000000 := rfl
  refine ⟨?_, fun hnil => absurd hnil (by simp), fun _ => ?_, fun _ => ?_⟩
  · intro x hx
    rcases List.mem_append.mp hx with hx | hx
    · exact h.fits x hx
    · rw [List.mem_singleton.mp hx]
      exact ⟨hne, hrtt⟩
  · by_cases hm : measured = []
    · subst hm
      simp [aimdLearn, (h.none rfl).1]
    · obtain ⟨hmem, hleast⟩ := h.base hm
      have hpos := (h.fits _ hmem).1
      unfold aimdLearn
      dsimp only
      by_cases hlt : rttUs < a.rttBaseUs
      · rw [if_pos (.inr hlt)]
        refine ⟨by simp, fun x hx => ?_⟩
        rcases List.mem_append.mp hx with hx | hx
        · exact hlt.le.trans (hleast x hx)
        · exact (List.mem_singleton.mp hx).ge
      · rw [if_neg (not_or.mpr ⟨hpos, hlt⟩)]
        refine ⟨List.mem_append_left _ hmem, fun x hx => ?_⟩
        rcases List.mem_append.mp hx with hx | hx
        · exact hleast x hx
        · exact (Nat.not_lt.mp hlt).trans (List.mem_singleton.mp hx).ge
  · by_cases hm : measured = []
    · subst hm
      obtain ⟨hb, he⟩ := h.none rfl
      simp [aimdLearn, hb, he]
    · obtain ⟨hmem, -⟩ := h.base hm
      obtain ⟨hle, hi, hhi, hehi⟩ := h.ewma hm
      have hpos := (h.fits _ hmem).1
      have he : a.rttEwmaUs ≠ 0 := by omega
      have hew : (aimdLearn a rttUs).rttEwmaUs = (a.rttEwmaUs * 7 + rttUs) / 8 := by
        simp only [aimdLearn, if_pos he]
        rw [u32_of_lt (show a.rttEwmaUs * 7 < 2 ^ 32 by omega), u32_of_lt (by omega)]
      have hbs : (aimdLearn a rttUs).rttBaseUs ≤ a.rttBaseUs ∧ (aimdLearn a rttUs).rttBaseUs ≤ rttUs := by
        unfold aimdLearn
        dsimp only
        split
        next hc => exact ⟨by omega, Nat.le_refl _⟩
        next hc => exact ⟨Nat.le_refl _, by omega⟩
      refine ⟨by omega, ?_⟩
      by_cases hbig : rttUs ≤ hi
      · exact ⟨hi, List.mem_append_left _ hhi, by omega⟩
      · exact ⟨rttUs, by simp, by omega⟩

theorem aimdRetune_alike (a : Aimd) (ceilingMs : Nat) : a.Alike (aimdRetuneDeadline a ceilingMs) ∧
    (aimdRetuneDeadline a ceilingMs).batchN = a.batchN ∧
    (aimdRetuneDeadline a ceilingMs).batchTimeouts = a.batchTimeouts ∧
    (aimdRetuneDeadline a ceilingMs).rttBaseUs = a.rttBaseUs ∧
    (aimdRetuneDeadline a ceilingMs).rttEwmaUs = a.rttEwmaUs := by
  unfold aimdRetuneDeadline
  split
  next => exact ⟨⟨rfl, rfl, rfl, rfl, rfl⟩, rfl, rfl, rfl, rfl⟩
  next => exact ⟨⟨rfl, rfl, rfl, rfl, rfl⟩, rfl, rfl, rfl, rfl⟩

theorem aimdRetune_deadline (hlo : a.deadlineFloorMs ≤ a.deadlineMs) (hhi : a.deadlineMs ≤ timeoutMs) :
    a.deadlineFloorMs ≤ (aimdRetuneDeadline a timeoutMs).deadlineMs ∧
      (aimdRetuneDeadline a timeoutMs).deadlineMs ≤ timeoutMs := by
  unfold aimdRetuneDeadline
  split
  next => exact ⟨hlo, hhi⟩
  next => exact clamp_bounds _ (hlo.trans hhi)

/-- What counting a sample leaves of the bounds, before the batch may end. -/
structure Counted (timeoutMs : Nat) (a b : Aimd) : Prop where
  alike : a.Alike b
  floor_le : a.deadlineFloorMs ≤ b.deadlineMs
  deadline_le : b.deadlineMs ≤ timeoutMs
  batch : b.batchN = a.batchN + 1
  timeouts : b.batchTimeouts ≤ b.batchN

theorem aimdCount_counted (rttUs : Nat) (timedOut : Bool) (h : a.Sound timeoutMs) :
    Counted timeoutMs a (aimdCount a rttUs timedOut timeoutMs) := by
  have hbatch := h.batch
  have hmax := h.wmax_le
  have htimeouts := h.timeouts
  unfold aimdCount
  dsimp only
  rw [u32_of_lt (show a.batchN + 1 < 2 ^ 32 by omega)]
  split
  next =>
    rw [u32_of_lt (show a.batchTimeouts + 1 < 2 ^ 32 by omega)]
    exact ⟨⟨rfl, rfl, rfl, rfl, rfl⟩, h.floor_le, h.deadline_le, rfl, Nat.succ_le_succ htimeouts⟩
  next =>
    split
    next =>
      generalize hl : aimdLearn { a with batchN := a.batchN + 1 } rttUs = l
      have hfloor : l.deadlineFloorMs = a.deadlineFloorMs := hl ▸ rfl
      have hdeadline : l.deadlineMs = a.deadlineMs := hl ▸ rfl
      obtain ⟨⟨hw, hmin, hmx, hf, hc⟩, hn, ht, -, -⟩ := aimdRetune_alike l timeoutMs
      have hd : l.deadlineFloorMs ≤ (aimdRetuneDeadline l timeoutMs).deadlineMs ∧
          (aimdRetuneDeadline l timeoutMs).deadlineMs ≤ timeoutMs := by
        apply aimdRetune_deadline
        · rw [hfloor, hdeadline]
          exact h.floor_le
        · rw [hdeadline]
          exact h.deadline_le
      refine ⟨⟨hw.trans (hl ▸ rfl), hmin.trans (hl ▸ rfl), hmx.trans (hl ▸ rfl), hf.trans hfloor, hc.trans (hl ▸ rfl)⟩,
        hfloor ▸ hd.1, hd.2, hn.trans (hl ▸ rfl), ?_⟩
      rw [hn, ht, ← hl]
      exact htimeouts.trans (Nat.le_succ _)
    next => exact ⟨⟨rfl, rfl, rfl, rfl, rfl⟩, h.floor_le, h.deadline_le, rfl, htimeouts.trans (Nat.le_succ _)⟩

theorem aimdCount_learned (timedOut : Bool) (timeoutMs : Nat) (h : a.Learned measured) (hrtt : rttUs ≤ rttMaxUs) :
    (aimdCount a rttUs timedOut timeoutMs).Learned (measured ++ (AimdCall.sample rttUs timedOut).measured) := by
  unfold aimdCount AimdCall.measured
  dsimp only
  cases timedOut with
  | true =>
    rw [List.append_nil]
    exact h.same rfl rfl
  | false =>
    dsimp only
    by_cases hz : rttUs = 0
    · rw [if_pos hz, if_neg (by simp), if_neg (by simp [hz]), List.append_nil]
      exact h.same rfl rfl
    · rw [if_neg hz, if_neg (by simp), if_pos hz]
      obtain ⟨-, -, -, hb, he⟩ := aimdRetune_alike (aimdLearn { a with batchN := u32 (a.batchN + 1) } rttUs) timeoutMs
      exact (aimdLearn_learned (h.same rfl rfl) hz hrtt).same hb he

theorem aimdCut_sound (nowMs : Nat) (h : a.Sound timeoutMs) {num den : Nat} (hr : (num, den) ∈ cutRatios) :
    (aimdCut a num den nowMs).Sound timeoutMs := by
  have hwmax := h.wmax_le
  have hwin := h.window_le
  unfold aimdCut
  split
  next =>
    have hcut : u32 (a.window * num) / den ≤ a.window := by
      obtain hr | hr : (num, den) = (4, 5) ∨ (num, den) = (9, 10) := by simpa [cutRatios] using hr
      · obtain ⟨rfl, rfl⟩ := Prod.mk.inj hr
        rw [u32_of_lt (by omega)]
        omega
      · obtain ⟨rfl, rfl⟩ := Prod.mk.inj hr
        rw [u32_of_lt (by omega)]
        omega
    exact ⟨h.wmin_pos, le_max_left _ _, max_le (h.wmin_le.trans hwin) (hcut.trans hwin), hwmax, h.floor_le,
      h.deadline_le, Nat.lt_of_le_of_lt (Nat.zero_le _) h.batch, Nat.le_refl _⟩
  next => exact h

theorem aimdPressure_sound (h : a.Sound timeoutMs) : (aimdPressure a nowMs).Sound timeoutMs := by
  have hwmax := h.wmax_le
  have hwin := h.window_le
  have hcut : u32 (a.window * 3) / 5 ≤ a.window := by
    rw [u32_of_lt (by omega)]
    omega
  exact ⟨h.wmin_pos, le_max_left _ _, max_le (h.wmin_le.trans hwin) (hcut.trans hwin), hwmax, h.floor_le,
    h.deadline_le, h.batch, h.timeouts⟩

theorem congestion_mem {r : Nat × Nat} (h : congestion a = some r) : r ∈ cutRatios := by
  unfold congestion at h
  split at h
  next =>
    obtain rfl := Option.some.inj h
    decide
  next =>
    split at h
    next =>
      obtain rfl := Option.some.inj h
      decide
    next => cases h

/-- The bounds of a window whose batch has been started anew. -/
theorem Aimd.Sound.restart (h : a.Sound timeoutMs) : a.newBatch.Sound timeoutMs :=
  ⟨h.wmin_pos, h.wmin_le, h.window_le, h.wmax_le, h.floor_le, h.deadline_le,
    Nat.lt_of_le_of_lt (Nat.zero_le _) h.batch, Nat.le_refl _⟩

theorem Counted.bounds (h : a.Sound timeoutMs) (hc : Counted timeoutMs a b) : b.newBatch.Sound timeoutMs := by
  obtain ⟨⟨hw, hmin, hmax, hf, -⟩, hlo, hhi, -, -⟩ := hc
  refine ⟨?_, ?_, ?_, ?_, ?_, hhi, ?_, Nat.le_refl _⟩
  · exact hmin.symm ▸ h.wmin_pos
  · exact (hmin.trans_le h.wmin_le).trans hw.ge
  · exact (hw.trans_le h.window_le).trans hmax.ge
  · exact hmax.trans_le h.wmax_le
  · exact hf.trans_le hlo
  · exact Nat.lt_of_lt_of_eq (Nat.lt_of_le_of_lt (Nat.zero_le _) h.batch) hmax.symm

theorem aimdCut_newBatch (a : Aimd) (num den nowMs : Nat) :
    (aimdCut a.newBatch num den nowMs).newBatch = (aimdCut a num den nowMs).newBatch := by
  unfold aimdCut
  by_cases hdue : cutDue a nowMs
  · rw [if_pos hdue, if_pos (show cutDue a.newBatch nowMs from hdue)]
    rfl
  · rw [if_neg hdue, if_neg (show ¬ cutDue a.newBatch nowMs from hdue)]
    rfl

theorem aimdGrow_sound (h : a.newBatch.Sound timeoutMs) : (aimdGrow a).newBatch.Sound timeoutMs := by
  have hwmax : a.wmax ≤ 4096 := h.wmax_le
  have hwin : a.window ≤ a.wmax := h.window_le
  have hmin : a.wmin ≤ a.window := h.wmin_le
  have hgrow : (aimdGrow a).window = min a.wmax (a.window + 1 + a.window / 32) := by
    unfold aimdGrow
    dsimp only
    rw [u32_of_lt (show a.window + 1 < 2 ^ 32 by omega), u32_of_lt (by omega)]
  have hlo : a.wmin ≤ (aimdGrow a).window := by omega
  exact ⟨h.wmin_pos, hlo, Nat.min_le_left _ _, hwmax, h.floor_le, h.deadline_le, h.batch, Nat.le_refl _⟩

theorem aimdBatch_sound (h : a.newBatch.Sound timeoutMs) : (aimdBatch a nowMs).Sound timeoutMs := by
  unfold aimdBatch
  cases hr : congestion a with
  | some r =>
    obtain ⟨num, den⟩ := r
    have hcut := (aimdCut_sound nowMs h (congestion_mem hr)).restart
    rw [aimdCut_newBatch] at hcut
    exact hcut
  | none => exact aimdGrow_sound h

theorem aimdSample_sound (h : a.Sound timeoutMs) : (aimdSample a rttUs timedOut nowMs timeoutMs).Sound timeoutMs := by
  have hc := aimdCount_counted rttUs timedOut h
  unfold aimdSample
  dsimp only
  split
  next hlt =>
    have hs := hc.bounds h
    exact ⟨hs.wmin_pos, hs.wmin_le, hs.window_le, hs.wmax_le, hs.floor_le, hs.deadline_le,
      Nat.lt_of_lt_of_le hlt hs.window_le, hc.timeouts⟩
  next => exact aimdBatch_sound (hc.bounds h)

theorem aimdCall_sound (h : a.Sound timeoutMs) {c : AimdCall} (hc : c.Legal) :
    (aimdCall timeoutMs a nowMs c).Sound timeoutMs := by
  cases c with
  | sample rttUs timedOut => exact aimdSample_sound h
  | cut num den => exact aimdCut_sound nowMs h hc
  | pressure => exact aimdPressure_sound h

theorem aimdCut_learned (h : a.Learned measured) (num den : Nat) : (aimdCut a num den nowMs).Learned measured := by
  unfold aimdCut
  split
  next => exact h.same rfl rfl
  next => exact h

theorem Aimd.Learned.newBatch (h : a.Learned measured) : a.newBatch.Learned measured :=
  h.same rfl rfl

theorem aimdBatch_learned (h : a.Learned measured) : (aimdBatch a nowMs).Learned measured := by
  unfold aimdBatch
  cases congestion a with
  | some r =>
    obtain ⟨num, den⟩ := r
    exact (aimdCut_learned h num den).newBatch
  | none => exact Aimd.Learned.newBatch (h.same rfl rfl)

theorem aimdCall_learned (h : a.Learned measured) {c : AimdCall} (hc : c.Legal) :
    (aimdCall timeoutMs a nowMs c).Learned (measured ++ c.measured) := by
  cases c with
  | sample rttUs timedOut =>
    have hl := aimdCount_learned timedOut timeoutMs h hc
    show (aimdSample _ _ _ _ _).Learned _
    unfold aimdSample
    dsimp only
    split
    next => exact hl
    next => exact aimdBatch_learned hl
  | cut num den =>
    rw [show (AimdCall.cut num den).measured = [] from rfl, List.append_nil]
    exact aimdCut_learned h num den
  | pressure =>
    rw [show AimdCall.pressure.measured = [] from rfl, List.append_nil]
    exact h.same rfl rfl

/-- No product of a call leaves its 32 bits. -/
theorem aimdProducts_lt (h : a.Sound timeoutMs) (hl : a.Learned measured) {c : AimdCall} (hc : c.Legal) :
    ∀ n ∈ aimdProducts timeoutMs a c, n < 2 ^ 32 := by
  have hwmax := h.wmax_le
  have hwin := h.window_le
  have hbatch := h.batch
  cases c with
  | sample rttUs timedOut =>
    have hrtt : rttUs ≤ rttMaxUs := hc
    have hmax : rttMaxUs = 60000000 := rfl
    obtain ⟨-, hewma⟩ := hl.le
    obtain ⟨hb', he'⟩ := (aimdCount_learned timedOut timeoutMs hl hrtt).le
    obtain ⟨⟨hw, -, -, -, -⟩, -, -, hn, ht⟩ := aimdCount_counted rttUs timedOut h
    intro n hn
    simp only [aimdProducts, List.mem_cons, List.not_mem_nil, or_false] at hn
    obtain rfl | rfl | rfl | rfl | rfl | rfl | rfl | rfl := hn <;> omega
  | cut num den =>
    intro n hn
    obtain rfl := List.mem_singleton.mp hn
    have hc : (num, den) ∈ cutRatios := hc
    obtain hr | hr : (num, den) = (4, 5) ∨ (num, den) = (9, 10) := by simpa [cutRatios] using hc
    · obtain ⟨rfl, rfl⟩ := Prod.mk.inj hr
      omega
    · obtain ⟨rfl, rfl⟩ := Prod.mk.inj hr
      omega
  | pressure =>
    intro n hn
    obtain rfl := List.mem_singleton.mp hn
    omega

theorem aimdCut_kept (a : Aimd) (num den nowMs : Nat) :
    ((aimdCut a num den nowMs).wmax = a.wmax ∧ (aimdCut a num den nowMs).wmin = a.wmin) ∧
      (aimdCut a num den nowMs).lastCutMs = if cutDue a nowMs then nowMs else a.lastCutMs := by
  unfold aimdCut
  split
  next => exact ⟨⟨rfl, rfl⟩, rfl⟩
  next => exact ⟨⟨rfl, rfl⟩, rfl⟩

@[simp] theorem newBatch_wmax (a : Aimd) : a.newBatch.wmax = a.wmax := rfl

@[simp] theorem newBatch_wmin (a : Aimd) : a.newBatch.wmin = a.wmin := rfl

@[simp] theorem newBatch_lastCutMs (a : Aimd) : a.newBatch.lastCutMs = a.lastCutMs := rfl

@[simp] theorem aimdGrow_wmax (a : Aimd) : (aimdGrow a).wmax = a.wmax := rfl

@[simp] theorem aimdGrow_wmin (a : Aimd) : (aimdGrow a).wmin = a.wmin := rfl

@[simp] theorem aimdGrow_lastCutMs (a : Aimd) : (aimdGrow a).lastCutMs = a.lastCutMs := rfl

theorem aimdBatch_some {num den : Nat} (h : congestion a = some (num, den)) :
    aimdBatch a nowMs = (aimdCut a num den nowMs).newBatch := by
  unfold aimdBatch
  rw [h]

theorem aimdBatch_none (h : congestion a = none) : aimdBatch a nowMs = (aimdGrow a).newBatch := by
  unfold aimdBatch
  rw [h]

theorem aimdBatch_kept (a : Aimd) (nowMs : Nat) :
    ((aimdBatch a nowMs).wmax = a.wmax ∧ (aimdBatch a nowMs).wmin = a.wmin) ∧
      (aimdBatch a nowMs).lastCutMs = if (congestion a).isSome ∧ cutDue a nowMs then nowMs else a.lastCutMs := by
  cases hr : congestion a with
  | some r =>
    obtain ⟨num, den⟩ := r
    obtain ⟨⟨hmax, hmin⟩, hlast⟩ := aimdCut_kept a num den nowMs
    rw [aimdBatch_some hr, newBatch_wmax, newBatch_wmin, newBatch_lastCutMs, hlast]
    refine ⟨⟨hmax, hmin⟩, ?_⟩
    by_cases hdue : cutDue a nowMs
    · rw [if_pos hdue, if_pos ⟨Option.isSome_some, hdue⟩]
    · rw [if_neg hdue, if_neg fun hc => hdue hc.2]
  | none =>
    rw [aimdBatch_none hr, newBatch_wmax, newBatch_wmin, newBatch_lastCutMs]
    refine ⟨⟨aimdGrow_wmax a, aimdGrow_wmin a⟩, ?_⟩
    rw [aimdGrow_lastCutMs, if_neg fun hc => Bool.noConfusion hc.1]

theorem aimdSample_eq (a : Aimd) (rttUs : Nat) (timedOut : Bool) (nowMs ceilingMs : Nat) :
    aimdSample a rttUs timedOut nowMs ceilingMs =
      if (aimdCount a rttUs timedOut ceilingMs).batchN < (aimdCount a rttUs timedOut ceilingMs).window then
        aimdCount a rttUs timedOut ceilingMs
      else aimdBatch (aimdCount a rttUs timedOut ceilingMs) nowMs := by
  unfold aimdSample
  rfl

theorem cutAsked_sample (ceilingMs : Nat) (a : Aimd) (rttUs : Nat) (timedOut : Bool) :
    cutAsked ceilingMs a (.sample rttUs timedOut) =
      if (aimdCount a rttUs timedOut ceilingMs).batchN < (aimdCount a rttUs timedOut ceilingMs).window then none
      else congestion (aimdCount a rttUs timedOut ceilingMs) := by
  unfold cutAsked
  rfl

/-- The bounds of the window stay, and the last cut is now where the call cuts or is under pressure. -/
theorem aimdCall_kept (nowMs : Nat) (h : a.Sound timeoutMs) (c : AimdCall) :
    ((aimdCall timeoutMs a nowMs c).wmax = a.wmax ∧ (aimdCall timeoutMs a nowMs c).wmin = a.wmin) ∧
      (aimdCall timeoutMs a nowMs c).lastCutMs =
        if (cutAsked timeoutMs a c).isSome ∧ cutDue a nowMs ∨ c = .pressure then nowMs else a.lastCutMs := by
  cases c with
  | sample rttUs timedOut =>
    have halike := (aimdCount_counted rttUs timedOut h).alike
    unfold aimdCall
    dsimp only
    rw [cutAsked_sample, aimdSample_eq]
    generalize aimdCount a rttUs timedOut timeoutMs = b at halike
    have hdue : cutDue b nowMs ↔ cutDue a nowMs := by
      unfold cutDue
      rw [halike.lastCut]
    obtain ⟨⟨hmax, hmin⟩, hlast⟩ := aimdBatch_kept b nowMs
    by_cases hlt : b.batchN < b.window
    · rw [if_pos hlt, if_pos hlt]
      refine ⟨⟨halike.wmax, halike.wmin⟩, halike.lastCut.trans (if_neg ?_).symm⟩
      rintro (⟨hsome, -⟩ | hpressure)
      · cases hsome
      · cases hpressure
    · rw [if_neg hlt, if_neg hlt]
      refine ⟨⟨hmax.trans halike.wmax, hmin.trans halike.wmin⟩, ?_⟩
      rw [hlast, halike.lastCut]
      by_cases hc : (congestion b).isSome ∧ cutDue b nowMs
      · rw [if_pos hc, if_pos (.inl ⟨hc.1, hdue.mp hc.2⟩)]
      · rw [if_neg hc, if_neg]
        rintro (⟨hsome, hd⟩ | hpressure)
        · exact hc ⟨hsome, hdue.mpr hd⟩
        · cases hpressure
  | cut num den =>
    obtain ⟨hkept, hlast⟩ := aimdCut_kept a num den nowMs
    refine ⟨hkept, hlast.trans ?_⟩
    by_cases hdue : cutDue a nowMs
    · rw [if_pos hdue, if_pos (.inl ⟨Option.isSome_some, hdue⟩)]
    · rw [if_neg hdue, if_neg]
      rintro (⟨-, hd⟩ | hpressure)
      · exact hdue hd
      · cases hpressure
  | pressure =>
    rw [if_pos (.inr rfl)]
    exact ⟨⟨rfl, rfl⟩, rfl⟩

/-- What holds of a run whose last call was at `clockMs`. -/
structure AimdRun.Sound (timeoutMs clockMs : Nat) (r : AimdRun) : Prop where
  state : r.state.Sound timeoutMs
  learned : r.state.Learned r.measured
  lastCut : r.state.lastCutMs ≤ clockMs
  cutTimes : ∀ t ∈ r.cutTimes, t ≤ r.state.lastCutMs
  spaced : r.cutTimes.Pairwise fun t u => t + 200 ≤ u
  products : ∀ n ∈ r.products, n < 2 ^ 32

theorem AimdRun.Sound.call {r : AimdRun} {clockMs : Nat} (h : r.Sound timeoutMs clockMs) {t : Nat × AimdCall}
    (hle : clockMs ≤ t.1) (hfit : t.1 < 2 ^ 64) (hc : t.2.Legal) : (r.call timeoutMs t).Sound timeoutMs t.1 := by
  obtain ⟨now, c⟩ := t
  dsimp only at hle hfit hc
  obtain ⟨-, hlast⟩ := aimdCall_kept now h.state c
  have hnow := h.lastCut.trans hle
  unfold AimdRun.call
  dsimp only
  refine ⟨aimdCall_sound h.state hc, aimdCall_learned h.learned hc, ?_, ?_, ?_, ?_⟩
  · dsimp only
    rw [hlast]
    split
    next => exact Nat.le_refl _
    next => exact hnow
  · intro u hu
    dsimp only
    rw [hlast]
    rcases List.mem_append.mp hu with hu | hu
    · split
      next => exact (h.cutTimes u hu).trans hnow
      next => exact h.cutTimes u hu
    · split at hu
      next hcut =>
        rw [if_pos (.inl hcut), List.mem_singleton.mp hu]
      next => cases hu
  · refine List.pairwise_append.mpr ⟨h.spaced, ?_, fun u hu v hv => ?_⟩
    · split
      next => exact List.pairwise_singleton _ _
      next => exact List.Pairwise.nil
    · split at hv
      next hcut =>
        rw [List.mem_singleton.mp hv]
        have hdue := hcut.2
        unfold cutDue at hdue
        rw [sub64_of_le hfit hnow] at hdue
        have hu := h.cutTimes u hu
        omega
      next => cases hv
  · intro n hn
    rcases List.mem_append.mp hn with hn | hn
    · exact h.products n hn
    · exact aimdProducts_lt h.state h.learned hc n hn

theorem AimdRun.Sound.run {calls : List (Nat × AimdCall)} {r : AimdRun} {clockMs : Nat}
    (h : r.Sound timeoutMs clockMs) (hclock : (calls.map Prod.fst).Pairwise (· ≤ ·))
    (hstart : ∀ t ∈ calls, clockMs ≤ t.1) (hcalls : ∀ t ∈ calls, t.1 < 2 ^ 64 ∧ t.2.Legal) :
    (∃ clockMs, (calls.foldl (AimdRun.call timeoutMs) r).Sound timeoutMs clockMs) ∧
      (calls.foldl (AimdRun.call timeoutMs) r).state.wmax = r.state.wmax ∧
      (calls.foldl (AimdRun.call timeoutMs) r).state.wmin = r.state.wmin := by
  induction calls generalizing r clockMs with
  | nil => exact ⟨⟨clockMs, h⟩, rfl, rfl⟩
  | cons t calls ih =>
    rw [List.map_cons, List.pairwise_cons] at hclock
    obtain ⟨hfit, hlegal⟩ := hcalls t List.mem_cons_self
    have hnext := h.call (hstart t List.mem_cons_self) hfit hlegal
    obtain ⟨hsound, hmax, hmin⟩ := ih hnext hclock.2
      (fun u hu => hclock.1 _ (List.mem_map_of_mem hu)) fun u hu => hcalls u (List.mem_cons_of_mem _ hu)
    obtain ⟨⟨hmax', hmin'⟩, -⟩ := aimdCall_kept t.1 h.state t.2
    exact ⟨hsound, hmax.trans hmax', hmin.trans hmin'⟩

theorem aimdInit_sound (start timeoutMs : Nat) {wmax : Nat} (hle : wmax ≤ 4096) :
    AimdRun.Sound timeoutMs 0 ⟨aimdInit start wmax timeoutMs, [], [], []⟩ := by
  have hmin : min 16 (max wmax 1) ≤ max wmax 1 := min_le_right _ _
  obtain ⟨hlo, hhi⟩ := clamp_bounds start hmin
  refine ⟨⟨?_, hlo, hhi, ?_, min_le_right _ _, Nat.le_refl _, ?_, Nat.le_refl _⟩, ⟨?_, fun _ => ⟨rfl, rfl⟩, ?_, ?_⟩,
    Nat.le_refl _, ?_, List.Pairwise.nil, ?_⟩
  · exact le_min (by decide) (le_max_right _ _)
  · exact max_le hle (by decide)
  · exact Nat.lt_of_lt_of_le Nat.one_pos (le_max_right _ _)
  · exact fun x hx => absurd hx List.not_mem_nil
  · exact fun hne => absurd rfl hne
  · exact fun hne => absurd rfl hne
  · exact fun t ht => absurd ht List.not_mem_nil
  · exact fun n hn => absurd hn List.not_mem_nil

/-- The window, the deadline and the round trips of any run of calls on a clock that does not go back. -/
theorem aimd_bounded {start wmax timeoutMs : Nat} {calls : List (Nat × AimdCall)} (hwmax : 1 ≤ wmax ∧ wmax ≤ 4096)
    (hclock : (calls.map Prod.fst).Pairwise (· ≤ ·)) (hcalls : ∀ t ∈ calls, t.1 < 2 ^ 64 ∧ t.2.Legal) :
    let r := aimdRun start wmax timeoutMs calls
    (r.state.wmin = min 16 wmax ∧ r.state.wmax = wmax ∧ r.state.wmin ≤ r.state.window ∧ r.state.window ≤ r.state.wmax) ∧
    (r.state.deadlineFloorMs ≤ r.state.deadlineMs ∧ r.state.deadlineMs ≤ timeoutMs) ∧
    (r.measured = [] → r.state.rttBaseUs = 0 ∧ r.state.rttEwmaUs = 0) ∧
    (r.measured ≠ [] → (r.state.rttBaseUs ∈ r.measured ∧ ∀ x ∈ r.measured, r.state.rttBaseUs ≤ x) ∧
      (∃ lo ∈ r.measured, lo ≤ r.state.rttEwmaUs) ∧ ∃ hi ∈ r.measured, r.state.rttEwmaUs ≤ hi) ∧
    (∀ n ∈ r.products, n < 2 ^ 32) ∧
    (r.cutTimes.Pairwise fun t u => t + 200 ≤ u) ∧
    ∀ pct, r.state.wmin ≤ effectiveWindow r.state pct ∧ effectiveWindow r.state pct ≤ r.state.wmax := by
  intro r
  obtain ⟨⟨clockMs, hs⟩, hmax, hmin⟩ := (aimdInit_sound start timeoutMs hwmax.2).run hclock
    (fun _ _ => Nat.zero_le _) hcalls
  have hwm : max wmax 1 = wmax := max_eq_left hwmax.1
  have hmin' : r.state.wmin = min 16 wmax := hmin.trans (congrArg (min 16) hwm)
  refine ⟨⟨hmin', hmax.trans hwm, hs.state.wmin_le, hs.state.window_le⟩, ⟨hs.state.floor_le, hs.state.deadline_le⟩,
    hs.learned.none, fun hne => ⟨hs.learned.base hne, ?_, (hs.learned.ewma hne).2⟩, hs.products, hs.spaced,
    fun pct => ?_⟩
  · exact ⟨_, (hs.learned.base hne).1, (hs.learned.ewma hne).1⟩
  · have hle : r.state.wmin ≤ r.state.wmax := hs.state.wmin_le.trans hs.state.window_le
    obtain ⟨hlo, hhi⟩ := clamp_bounds (u32 (r.state.wmax * pct / 100)) hle
    exact ⟨le_min hs.state.wmin_le hlo, (min_le_right _ _).trans hhi⟩

theorem aimd_bounded_lossy : (aimdRun 64 64 800 [(100, .sample 20000 false), (250, .pressure), (300, .cut 4 5),
    (450, .cut 4 5), (500, .sample 0 true)]).cutTimes.Pairwise fun t u => t + 200 ≤ u := by
  refine (@aimd_bounded 64 64 800 _ (by decide) (by decide) ?_).2.2.2.2.2.1
  intro t ht
  simp only [List.mem_cons, List.not_mem_nil, or_false] at ht
  obtain rfl | rfl | rfl | rfl | rfl := ht
  · exact ⟨by decide, (by decide : 20000 ≤ rttMaxUs)⟩
  · exact ⟨by decide, trivial⟩
  · exact ⟨by decide, (by decide : (4, 5) ∈ cutRatios)⟩
  · exact ⟨by decide, (by decide : (4, 5) ∈ cutRatios)⟩
  · exact ⟨by decide, (by decide : 0 ≤ rttMaxUs)⟩

end Qanat
