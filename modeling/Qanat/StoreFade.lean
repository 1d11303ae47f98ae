import Qanat.StoreRun

namespace Qanat

section Decay

theorem half_pos : 0 < storeHalflifeSec := by decide

/-- The loop halves once for each half-life, and stops at one. -/
theorem decayLoop_eq (n dt : Nat) :
    decayLoop n (2 ^ n) dt =
      (2 ^ (n - min n (dt / storeHalflifeSec)), dt - min n (dt / storeHalflifeSec) * storeHalflifeSec) := by
  induction n generalizing dt with
  | zero => rw [decayLoop, Nat.zero_min, Nat.zero_mul, Nat.sub_zero, Nat.sub_zero]
  | succ n ih =>
    have hone : 1 < 2 ^ (n + 1) := Nat.one_lt_two_pow (Nat.succ_ne_zero n)
    rw [decayLoop]
    split
    next h =>
      have hshift : 2 ^ (n + 1) >>> 1 = 2 ^ n := by
        rw [Nat.shiftRight_eq_div_pow, Nat.pow_succ, Nat.pow_one, Nat.mul_div_cancel _ (by decide)]
      have hdiv : dt / storeHalflifeSec = (dt - storeHalflifeSec) / storeHalflifeSec + 1 := by
        rw [← Nat.add_div_right _ half_pos, Nat.sub_add_cancel h.1]
      rw [hshift, ih, hdiv, Nat.add_min_add_right, Nat.add_mul, Nat.one_mul, Nat.add_sub_add_right,
        Nat.sub_sub, Nat.add_comm storeHalflifeSec]
    next h =>
      have hlt : dt < storeHalflifeSec := Nat.lt_of_not_le fun hle => h ⟨hle, hone⟩
      rw [Nat.div_eq_of_lt hlt, Nat.min_zero, Nat.zero_mul, Nat.sub_zero, Nat.sub_zero]

theorem decayQ10_early {dt : Nat} (h : dt / storeHalflifeSec < 10) :
    decayQ10 dt = 2 ^ (10 - dt / storeHalflifeSec) -
      2 ^ (9 - dt / storeHalflifeSec) * (dt % storeHalflifeSec) / storeHalflifeSec := by
  have hmod : dt - dt / storeHalflifeSec * storeHalflifeSec = dt % storeHalflifeSec := by
    rw [Nat.mul_comm, Nat.mod_eq_sub]
  have hhalf : 2 ^ (10 - dt / storeHalflifeSec) / 2 = 2 ^ (9 - dt / storeHalflifeSec) := by
    rw [show 10 - dt / storeHalflifeSec = 9 - dt / storeHalflifeSec + 1 by omega, Nat.pow_succ,
      Nat.mul_div_cancel _ (by decide)]
  unfold decayQ10
  rw [show q10 = 2 ^ 10 from rfl, decayLoop_eq, Nat.min_eq_right (by omega)]
  dsimp only
  rw [if_pos (Nat.one_lt_two_pow (by omega)), hmod, hhalf]

theorem decayQ10_late {dt : Nat} (h : 10 ≤ dt / storeHalflifeSec) : decayQ10 dt = 1 := by
  unfold decayQ10
  rw [show q10 = 2 ^ 10 from rfl, decayLoop_eq, Nat.min_eq_left h]
  rfl

/-- Within the half-life `k` the decay runs from `2 ^ (10 - k)` to above the half of it. -/
theorem decayQ10_bounds {dt : Nat} (h : dt / storeHalflifeSec < 10) :
    2 ^ (9 - dt / storeHalflifeSec) < decayQ10 dt ∧ decayQ10 dt ≤ 2 ^ (10 - dt / storeHalflifeSec) := by
  have hdouble : 2 ^ (10 - dt / storeHalflifeSec) = 2 ^ (9 - dt / storeHalflifeSec) + 2 ^ (9 - dt / storeHalflifeSec) := by
    rw [show 10 - dt / storeHalflifeSec = 9 - dt / storeHalflifeSec + 1 by omega, Nat.pow_succ, Nat.mul_two]
  have hlt : 2 ^ (9 - dt / storeHalflifeSec) * (dt % storeHalflifeSec) / storeHalflifeSec < 2 ^ (9 - dt / storeHalflifeSec) := by
    rw [Nat.div_lt_iff_lt_mul half_pos]
    exact Nat.mul_lt_mul_of_pos_left (Nat.mod_lt _ half_pos) (Nat.two_pow_pos _)
  rw [decayQ10_early h, hdouble]
  generalize 2 ^ (9 - dt / storeHalflifeSec) * (dt % storeHalflifeSec) / storeHalflifeSec = lost at *
  generalize 2 ^ (9 - dt / storeHalflifeSec) = half at *
  omega

theorem decayQ10_pos (dt : Nat) : 1 ≤ decayQ10 dt := by
  rcases Nat.lt_or_ge (dt / storeHalflifeSec) 10 with h | h
  · exact Nat.le_trans (Nat.two_pow_pos _) (decayQ10_bounds h).1.le
  · rw [decayQ10_late h]

theorem decayQ10_antitone {dt dt' : Nat} (h : dt ≤ dt') : decayQ10 dt' ≤ decayQ10 dt := by
  have hdiv : dt / storeHalflifeSec ≤ dt' / storeHalflifeSec := Nat.div_le_div_right h
  rcases Nat.lt_or_ge (dt' / storeHalflifeSec) 10 with hlate | hlate
  · rcases Nat.eq_or_lt_of_le hdiv with heq | hlt
    · have hmod : dt % storeHalflifeSec ≤ dt' % storeHalflifeSec := by
        have h₁ := Nat.div_add_mod dt storeHalflifeSec
        have h₂ := Nat.div_add_mod dt' storeHalflifeSec
        rw [heq] at h₁
        omega
      rw [decayQ10_early hlate, decayQ10_early (by omega), heq]
      exact Nat.sub_le_sub_left (Nat.div_le_div_right (Nat.mul_le_mul_left _ hmod)) _
    · have hlow := (@decayQ10_bounds dt (by omega)).1
      have hhigh := (decayQ10_bounds hlate).2
      have hpow : 2 ^ (10 - dt' / storeHalflifeSec) ≤ 2 ^ (9 - dt / storeHalflifeSec) :=
        Nat.pow_le_pow_right (by decide) (by omega)
      omega
  · rw [decayQ10_late hlate]
    exact decayQ10_pos dt

theorem decayQ10_halves {k : Nat} (hk : k ≤ 10) : decayQ10 (k * storeHalflifeSec) = q10 / 2 ^ k := by
  have hdiv : k * storeHalflifeSec / storeHalflifeSec = k := Nat.mul_div_cancel _ half_pos
  rcases Nat.lt_or_eq_of_le hk with h | rfl
  · rw [decayQ10_early (by rw [hdiv]; exact h), hdiv, Nat.mul_mod_left, Nat.mul_zero, Nat.zero_div, Nat.sub_zero,
      show q10 = 2 ^ 10 from rfl, Nat.pow_div hk (by decide)]
  · rw [decayQ10_late (by rw [hdiv])]
    rfl

end Decay

section Confidence

def popcount (m : Nat) : Nat :=
  (List.range 32).countP fun i => m.testBit i

/-- The points of an entry before they fade. -/
def confidencePoints (e : StoreEntry) : Nat :=
  let rate := e.score * 1000 / e.weight
  let conf := rate * 7 / 10
  let paths := popcount e.operMask
  let conf := if 1 < paths then conf + min (paths - 1) 3 * 60 else conf
  let conf := if 3 ≤ e.runs then conf + 60 else conf
  if 8 ≤ e.runs then conf + 60 else conf

/-- The part of `qn_store_confidence` behind its search. -/
def entryConfidence (e : StoreEntry) (now : Nat) : Nat :=
  if e.weight = 0 then 0
  else
    let conf := confidencePoints e * e.decay now / q10
    if 1000 < conf then 1000 else conf

/-- `qn_store_find`. -/
def storeFind (s : Store) (a : Addr) : Option StoreEntry :=
  s.e.find? fun e => e.addr = a

/-- `qn_store_confidence`. -/
def storeConfidence (s : Store) (a : Addr) (now : Nat) : Nat :=
  match storeFind s a with
  | none => 0
  | some e => entryConfidence e now

theorem StoreEntry.decay_antitone (e : StoreEntry) {t t' : Nat} (h : t ≤ t') : e.decay t' ≤ e.decay t := by
  unfold StoreEntry.decay
  split
  next hlate =>
    split
    next => exact decayQ10_antitone (Nat.sub_le_sub_right h _)
    next => exact decayQ10_le _
  next hearly =>
    split
    next hseen => exact absurd ⟨hseen.1, hseen.2.trans_le h⟩ hearly
    next => exact Nat.le_refl _

theorem entryConfidence_le (e : StoreEntry) (now : Nat) : entryConfidence e now ≤ 1000 := by
  unfold entryConfidence
  dsimp only
  split
  next => exact Nat.zero_le _
  next =>
    split
    next => exact Nat.le_refl _
    next h => exact Nat.le_of_not_lt h

theorem clamp_mono {x y : Nat} (h : x ≤ y) : (if 1000 < x then 1000 else x) ≤ if 1000 < y then 1000 else y := by
  split <;> split <;> omega

theorem entryConfidence_antitone (e : StoreEntry) {t t' : Nat} (h : t ≤ t') :
    entryConfidence e t' ≤ entryConfidence e t := by
  have hfade : confidencePoints e * e.decay t' / q10 ≤ confidencePoints e * e.decay t / q10 :=
    Nat.div_le_div_right (Nat.mul_le_mul_left _ (e.decay_antitone h))
  unfold entryConfidence
  dsimp only
  split
  next => exact Nat.le_refl _
  next => exact clamp_mono hfade

theorem popcount_mono (m b : Nat) : popcount m ≤ popcount (m ||| b) := by
  unfold popcount
  refine List.countP_mono_left fun i _ hi => ?_
  rw [Nat.testBit_or, hi, Bool.true_or]

/-- The points for paths and runs. -/
def confidenceBonus (paths runs : Nat) : Nat :=
  (if 1 < paths then min (paths - 1) 3 * 60 else 0) + (if 3 ≤ runs then 60 else 0) + if 8 ≤ runs then 60 else 0

theorem confidencePoints_eq (e : StoreEntry) :
    confidencePoints e = e.score * 1000 / e.weight * 7 / 10 + confidenceBonus (popcount e.operMask) e.runs := by
  unfold confidencePoints confidenceBonus
  dsimp only
  split <;> split <;> split <;> omega

theorem confidenceBonus_mono {paths paths' runs runs' : Nat} (hp : paths ≤ paths') (hr : runs ≤ runs') :
    confidenceBonus paths runs ≤ confidenceBonus paths' runs' := by
  unfold confidenceBonus
  split <;> split <;> split <;> split <;> split <;> split <;> omega

section Rate

variable {s w : Nat} (hw : 0 < w) (hsw : s ≤ w)
include hw hsw

/-- One more success raises the rate. -/
theorem rate_raised : s * 1000 / w ≤ (s + q10) * 1000 / (w + q10) := by
  have hk : s * 1000 / w ≤ 1000 := Nat.div_le_of_le_mul (Nat.mul_le_mul_right _ hsw)
  have hkw := Nat.div_mul_le_self (s * 1000) w
  rw [Nat.le_div_iff_mul_le (by omega), Nat.mul_add, Nat.add_mul]
  have hkq : s * 1000 / w * q10 ≤ q10 * 1000 := by
    rw [Nat.mul_comm q10]
    exact Nat.mul_le_mul_right _ hk
  omega

/-- So it does after the sums have been halved and rounded up. -/
theorem rate_halved : s * 1000 / w ≤ ((s + 1) / 2 + q10) * 1000 / ((w + 1) / 2 + q10) := by
  have hk : s * 1000 / w ≤ 1000 := Nat.div_le_of_le_mul (Nat.mul_le_mul_right _ hsw)
  have hkw := Nat.div_mul_le_self (s * 1000) w
  rw [Nat.le_div_iff_mul_le (by omega)]
  rcases Nat.lt_or_eq_of_le hk with hlt | heq
  · have hw' : 2 * ((w + 1) / 2 + q10) ≤ w + 2049 := by
      unfold q10
      omega
    have hs' : s + 2048 ≤ 2 * ((s + 1) / 2 + q10) := by
      unfold q10
      omega
    have hmul : s * 1000 / w * (2 * ((w + 1) / 2 + q10)) ≤ s * 1000 / w * w + s * 1000 / w * 2049 := by
      rw [← Nat.mul_add]
      exact Nat.mul_le_mul_left _ hw'
    rw [Nat.mul_left_comm] at hmul
    omega
  · have hle : w ≤ s := by
      rw [heq] at hkw
      omega
    rw [heq, Nat.le_antisymm hsw hle, Nat.mul_comm]

omit hw in
/-- After both sums have faded it is at most one lower. -/
theorem rate_faded (d : Nat) :
    s * 1000 / w ≤ (s * d / q10 + q10) * 1000 / (w * d / q10 + q10) + 1 := by
  have hk : s * 1000 / w ≤ 1000 := Nat.div_le_of_le_mul (Nat.mul_le_mul_right _ hsw)
  have hkw := Nat.mul_le_mul_right d (Nat.div_mul_le_self (s * 1000) w)
  have hq : q10 = 1024 := rfl
  have hw₁ := Nat.div_mul_le_self (w * d) q10
  have hs₁ := Nat.lt_div_mul_add (a := s * d) (show 0 < q10 by decide)
  rw [← Nat.sub_le_iff_le_add, Nat.le_div_iff_mul_le (Nat.add_pos_right _ (by decide))]
  generalize hkdef : s * 1000 / w = k at *
  have hscaled : (k - 1) * (w * d / q10 * q10) ≤ (k - 1) * (w * d) := Nat.mul_le_mul_left _ hw₁
  have hless : (k - 1) * (w * d) ≤ k * w * d := by
    rw [Nat.mul_assoc]
    exact Nat.mul_le_mul_right _ (Nat.sub_le _ _)
  have hprod : s * 1000 * d = 1000 * (s * d) := by
    rw [Nat.mul_comm s, Nat.mul_assoc]
  have hfinal : (k - 1) * (w * d / q10 + q10) * q10 ≤ (s * d / q10 + q10) * 1000 * q10 := by
    rw [Nat.mul_assoc, Nat.add_mul, Nat.mul_add, Nat.mul_right_comm _ 1000, Nat.add_mul]
    rw [hprod] at hkw
    generalize (k - 1) * (w * d / q10 * q10) = x at *
    generalize s * d / q10 * q10 = y at *
    generalize k * w * d = z at *
    rw [hq] at *
    omega
  exact Nat.le_of_mul_le_mul_right hfinal (by decide)

end Rate

section Observe

variable {e : StoreEntry} {oper : Bytes} {handshakeUs now : Nat}

/-- An entry does not fade at the instant of its last observation. -/
theorem observeEntry_decay : (observeEntry id oper true handshakeUs now e).decay now = q10 := by
  unfold StoreEntry.decay observeEntry
  dsimp only
  refine if_neg ?_
  rintro ⟨-, h⟩
  split at h <;> omega

/-- Where the sums are full nothing has faded. -/
theorem full_unfaded {d v : Nat} (hv : v < 2 ^ 32) (hd : d ≤ q10) (h : 2 ^ 32 - 1 - q10 < v * d / q10) : d = q10 := by
  by_contra hne
  have hmul : v * d ≤ v * 1023 := Nat.mul_le_mul_left _ (by unfold q10 at *; omega)
  have hdiv := Nat.div_mul_le_self (v * d) q10
  unfold q10 at *
  omega

/-- A sum that has faded, halved where one of the two has no room for another success. -/
def halvedSum (full : Prop) [Decidable full] (v : Nat) : Nat :=
  if full then (v + 1) / 2 else v

theorem observeEntry_success {d : Nat}
    (hd : d = e.decay (if e.lastSeen ≠ 0 ∧ now < e.lastSeen then e.lastSeen else now)) :
    (observeEntry id oper true handshakeUs now e).score =
      halvedSum (2 ^ 32 - 1 - q10 < e.score * d / q10 ∨ 2 ^ 32 - 1 - q10 < e.weight * d / q10) (e.score * d / q10) + q10 ∧
    (observeEntry id oper true handshakeUs now e).weight =
      halvedSum (2 ^ 32 - 1 - q10 < e.score * d / q10 ∨ 2 ^ 32 - 1 - q10 < e.weight * d / q10) (e.weight * d / q10) +
        q10 := by
  subst hd
  exact ⟨rfl, rfl⟩

/-- The rate after a success, by how far the entry has faded. -/
theorem observeEntry_rate (hfit : e.Fits) (hsane : e.Sane) (hw : 0 < e.weight) {d : Nat}
    (hd : d = e.decay (if e.lastSeen ≠ 0 ∧ now < e.lastSeen then e.lastSeen else now)) :
    e.score * 1000 / e.weight ≤ (observeEntry id oper true handshakeUs now e).score * 1000 /
      (observeEntry id oper true handshakeUs now e).weight + if d = q10 then 0 else 1 := by
  have hle : d ≤ q10 := hd ▸ e.decay_le _
  have hscore := hsane.score_le
  obtain ⟨hs, hwt⟩ := @observeEntry_success e oper handshakeUs now d hd
  rw [hs, hwt]
  unfold halvedSum
  by_cases hfull : 2 ^ 32 - 1 - q10 < e.score * d / q10 ∨ 2 ^ 32 - 1 - q10 < e.weight * d / q10
  · have hd' : d = q10 := hfull.elim (full_unfaded hfit.score hle) (full_unfaded hfit.weight hle)
    rw [if_pos hfull, if_pos hfull, if_pos hd', hd', Nat.mul_div_cancel _ (by decide), Nat.mul_div_cancel _ (by decide),
      Nat.add_zero]
    exact rate_halved hw hscore
  · rw [if_neg hfull, if_neg hfull]
    by_cases hd' : d = q10
    · rw [if_pos hd', hd', Nat.mul_div_cancel _ (by decide), Nat.mul_div_cancel _ (by decide), Nat.add_zero]
      exact rate_raised hw hscore
    · rw [if_neg hd']
      exact rate_faded hscore d

theorem observeEntry_bonus :
    confidenceBonus (popcount e.operMask) e.runs ≤
      confidenceBonus (popcount (observeEntry id oper true handshakeUs now e).operMask)
        (observeEntry id oper true handshakeUs now e).runs := by
  refine confidenceBonus_mono (popcount_mono _ _) ?_
  unfold observeEntry
  dsimp only [id]
  split <;> omega

theorem observeEntry_points (hfit : e.Fits) (hsane : e.Sane) (hw : 0 < e.weight) :
    confidencePoints e ≤ confidencePoints (observeEntry id oper true handshakeUs now e) +
      if e.decay (if e.lastSeen ≠ 0 ∧ now < e.lastSeen then e.lastSeen else now) = q10 then 0 else 1 := by
  have hrate := @observeEntry_rate e oper handshakeUs now hfit hsane hw _ rfl
  have hbonus := @observeEntry_bonus e oper handshakeUs now
  rw [confidencePoints_eq, confidencePoints_eq]
  split
  next h =>
    rw [if_pos h] at hrate
    omega
  next h =>
    rw [if_neg h] at hrate
    omega

/-- A success at an instant does not lower the confidence at that instant. -/
theorem observeEntry_confidence (hfit : e.Fits) (hsane : e.Sane) :
    entryConfidence e now ≤ entryConfidence (observeEntry id oper true handshakeUs now e) now := by
  rcases Nat.eq_zero_or_pos e.weight with h0 | hw
  · rw [entryConfidence, if_pos h0]
    exact Nat.zero_le _
  have hweight := (@observeEntry_sums e oper true handshakeUs now hfit hsane).2.1
  have hweight : 0 < (observeEntry id oper true handshakeUs now e).weight := Nat.lt_of_lt_of_le (by decide) hweight
  have hpoints := @observeEntry_points e oper handshakeUs now hfit hsane hw
  have hfade : confidencePoints e * e.decay now / q10 ≤ confidencePoints (observeEntry id oper true handshakeUs now e) := by
    have hsame : confidencePoints e ≤ confidencePoints (observeEntry id oper true handshakeUs now e) + 0 →
        confidencePoints e * e.decay now / q10 ≤ confidencePoints (observeEntry id oper true handshakeUs now e) :=
      (faded_le (e.decay_le now) _).trans
    by_cases hback : e.lastSeen ≠ 0 ∧ now < e.lastSeen
    · have hself : e.decay e.lastSeen = q10 := if_neg fun hno => Nat.lt_irrefl _ hno.2
      rw [if_pos hback, if_pos hself] at hpoints
      exact hsame hpoints
    · rw [if_neg hback] at hpoints
      split at hpoints
      next => exact hsame hpoints
      next hne =>
        have hnow : e.decay now < q10 := Nat.lt_of_le_of_ne (e.decay_le now) hne
        rcases Nat.eq_zero_or_pos (confidencePoints e) with h0 | hpos
        · rw [h0, Nat.zero_mul, Nat.zero_div]
          exact Nat.zero_le _
        · have hlt : confidencePoints e * e.decay now / q10 < confidencePoints e := by
            refine Nat.div_lt_of_lt_mul ?_
            rw [Nat.mul_comm]
            exact Nat.mul_lt_mul_of_pos_right hnow hpos
          omega
  unfold entryConfidence
  dsimp only
  rw [if_neg hw.ne', if_neg hweight.ne', observeEntry_decay, Nat.mul_div_cancel _ (by decide)]
  exact clamp_mono hfade

end Observe

end Confidence

section Store

variable {s : Store} {a : Addr} {oper : Bytes} {handshakeUs now : Nat}

theorem storeConfidence_antitone (s : Store) (a : Addr) {t t' : Nat} (h : t ≤ t') :
    storeConfidence s a t' ≤ storeConfidence s a t := by
  unfold storeConfidence
  split
  next => exact Nat.le_refl _
  next e _ => exact entryConfidence_antitone e h

theorem storeConfidence_le (s : Store) (a : Addr) (t : Nat) : storeConfidence s a t ≤ 1000 := by
  unfold storeConfidence
  split
  next => exact Nat.zero_le _
  next e _ => exact entryConfidence_le e t

/-- An observation of an address that is there changes its entry. -/
theorem storeFind_observe (h : StoreValid s.cap s.e) {e : StoreEntry} (hfind : storeFind s a = some e) :
    storeFind (observeAs id s a oper true handshakeUs now) a = some (observeEntry id oper true handshakeUs now e) := by
  have hmem := List.mem_of_find?_eq_some hfind
  have haddr : e.addr = a := by simpa using List.find?_some hfind
  have hlt : entryIdx a s.e < s.e.length :=
    (Keyed.findIdx_lt_iff a).mpr (List.mem_map.mpr ⟨e, hmem, haddr⟩)
  have hcap : s.cap ≠ 0 := by
    have := h.room
    omega
  have hkey : ∀ x, (observeEntry id oper true handshakeUs now x).addr = x.addr := fun _ => rfl
  unfold observeAs slotFor
  rw [if_neg hcap, if_pos hlt]
  show (s.e.modify (s.e.findIdx fun x => x.addr = a) (observeEntry id oper true handshakeUs now)).find? _ = _
  rw [Keyed.modify_findIdx h.distinct]
  have hmap := @Keyed.lookup_map _ _ StoreEntry.addr s.e _
    (fun x => if x.addr = a then observeEntry id oper true handshakeUs now x else x)
    (fun x => by split <;> rfl) a
  unfold Keyed.lookup at hmap
  rw [hmap, show s.e.find? (fun x => decide (x.addr = a)) = some e from hfind, Option.map_some, if_pos haddr]

theorem storeObserve_confidence (h : StoreValid s.cap s.e) (hh : handshakeUs < 2 ^ 32) :
    storeConfidence s a now ≤ storeConfidence (storeObserve s a oper true handshakeUs now) a now := by
  rw [storeObserve_eq h hh]
  cases hfind : storeFind s a with
  | none =>
    rw [storeConfidence, hfind]
    exact Nat.zero_le _
  | some e =>
    have hmem := List.mem_of_find?_eq_some hfind
    rw [storeConfidence, storeConfidence, hfind, storeFind_observe h hfind]
    exact observeEntry_confidence (h.fits e hmem) (h.sane e hmem)

end Store

/-- The evidence of a store only fades with time, and a success does not lower it. -/
theorem evidence_only_fades (inet : InetText) (cap : Nat) (acts : List StoreAct) (a : Addr) :
    (∀ t t', t ≤ t' → storeConfidence (storeRun inet cap acts) a t' ≤ storeConfidence (storeRun inet cap acts) a t) ∧
    (∀ t, storeConfidence (storeRun inet cap acts) a t ≤ 1000) ∧
    (∀ (oper : Bytes) (handshakeUs : UInt32) (now : UInt64), storeConfidence (storeRun inet cap acts) a now.toNat ≤
      storeConfidence (storeRun inet cap (acts ++ [StoreAct.observe a oper true handshakeUs now])) a now.toNat) ∧
    (∀ dt dt', dt ≤ dt' → decayQ10 dt' ≤ decayQ10 dt) ∧ (∀ dt, 1 ≤ decayQ10 dt ∧ decayQ10 dt ≤ 1024) ∧
    (∀ k ≤ 10, decayQ10 (k * storeHalflifeSec) = 1024 / 2 ^ k) ∧
    ∀ dt, 10 * storeHalflifeSec ≤ dt → decayQ10 dt = 1 := by
  obtain ⟨hcap, hvalid⟩ := storeRun_valid inet cap acts
  refine ⟨fun t t' => storeConfidence_antitone _ a, storeConfidence_le _ a, fun oper handshakeUs now => ?_,
    fun dt dt' => decayQ10_antitone, fun dt => ⟨decayQ10_pos dt, decayQ10_le dt⟩, fun k => decayQ10_halves, fun dt h => ?_⟩
  · have hrun : storeRun inet cap (acts ++ [StoreAct.observe a oper true handshakeUs now]) =
        storeObserve (storeRun inet cap acts) a oper true handshakeUs.toNat now.toNat := by
      rw [storeRun, List.foldl_append]
      rfl
    rw [hrun]
    exact storeObserve_confidence (hcap.symm ▸ hvalid) handshakeUs.toNat_lt
  · exact decayQ10_late ((Nat.le_div_iff_mul_le half_pos).mpr h)

end Qanat
