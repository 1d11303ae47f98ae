import Qanat.TimeWheelRun

namespace Qanat

open TwView

/-- The sweep of ticks from `cursor` on meets a node that is put off into a tick still to be swept,
and meets no due node before it. -/
def Trapped (list : Nat → List Nat) (deadline : Nat → Nat) (now cursor : Nat) : Prop :=
  ∃ u x, x ∈ list (u % twSlots) ∧ now < deadline x ∧ cursor ≤ u ∧ u + twSlots ≤ twTick now (deadline x - now) ∧
    (∀ t y, cursor ≤ t → t + twSlots < twTick now (deadline x - now) → y ∈ list (t % twSlots) → now < deadline y) ∧
    (u + twSlots = twTick now (deadline x - now) →
      ∀ y ∈ (list (u % twSlots)).takeWhile (· ≠ x), now < deadline y)

/-- The sweep of an expiry at `now` is trapped. -/
def TwTrap (w : TimeWheel) (now : Nat) : Prop :=
  Trapped w.list (fun n => (w.node n).deadline) (twEnter w now).now (twEnter w now).cursor

theorem mem_takeWhile_of_erase {l : List Nat} {n x y : Nat} (hx : n ≠ x)
    (h : y ∈ (l.erase n).takeWhile (· ≠ x)) : y ∈ l.takeWhile (· ≠ x) := by
  induction l with
  | nil => cases h
  | cons c l ih =>
    by_cases hc : c = n
    · subst hc
      rw [List.erase_cons_head] at h
      rw [List.takeWhile_cons_of_pos (by simpa using hx)]
      exact List.mem_cons_of_mem _ h
    · rw [List.erase_cons_tail (by simpa using hc)] at h
      by_cases hcx : c = x
      · rw [List.takeWhile_cons_of_neg (by simpa using hcx)] at h
        cases h
      · rw [List.takeWhile_cons_of_pos (by simpa using hcx)] at h ⊢
        obtain rfl | h := List.mem_cons.mp h
        · exact List.mem_cons_self
        · exact List.mem_cons_of_mem _ (ih h)

theorem mem_takeWhile_erase {l : List Nat} {n x y : Nat} (hyn : y ≠ n)
    (h : y ∈ l.takeWhile (· ≠ x)) : y ∈ (l.erase n).takeWhile (· ≠ x) := by
  induction l with
  | nil => cases h
  | cons c l ih =>
    by_cases hcx : c = x
    · rw [List.takeWhile_cons_of_neg (by simpa using hcx)] at h
      cases h
    · rw [List.takeWhile_cons_of_pos (by simpa using hcx)] at h
      by_cases hc : c = n
      · subst hc
        rw [List.erase_cons_head]
        exact (List.mem_cons.mp h).resolve_left hyn
      · rw [List.erase_cons_tail (by simpa using hc), List.takeWhile_cons_of_pos (by simpa using hcx)]
        obtain rfl | h := List.mem_cons.mp h
        · exact List.mem_cons_self
        · exact List.mem_cons_of_mem _ (ih h)

namespace TwView

variable {v : TwView} {n : Nat}

def Trap (v : TwView) : Prop :=
  Trapped v.list v.deadline v.now v.cursor

theorem move_list_landing {s : Nat} (hs : s = v.landing n % twSlots) : (v.move n).list s = n :: (v.list s).erase n :=
  if_pos hs

theorem move_list_ne {s : Nat} (hs : s ≠ v.landing n % twSlots) : (v.move n).list s = (v.list s).erase n :=
  if_neg hs

theorem mem_move (hv : ∀ s, (v.list s).Nodup) {s m : Nat} : m ∈ (v.move n).list s ↔
    m = n ∧ s = v.landing n % twSlots ∨ m ≠ n ∧ m ∈ v.list s := by
  by_cases hs : s = v.landing n % twSlots
  · rw [move_list_landing hs, List.mem_cons, (hv s).mem_erase_iff]
    tauto
  · rw [move_list_ne hs, (hv s).mem_erase_iff]
    tauto

theorem before_of_move {x y s : Nat} (hx : n ≠ x) (hy : y ≠ n)
    (h : y ∈ ((v.move n).list s).takeWhile (· ≠ x)) : y ∈ (v.list s).takeWhile (· ≠ x) := by
  by_cases hs : s = v.landing n % twSlots
  · rw [move_list_landing hs, List.takeWhile_cons_of_pos (by simpa using hx)] at h
    exact mem_takeWhile_of_erase hx ((List.mem_cons.mp h).resolve_left hy)
  · rw [move_list_ne hs] at h
    exact mem_takeWhile_of_erase hx h

theorem before_move {x y s : Nat} (hx : n ≠ x) (hy : y ≠ n)
    (h : y ∈ (v.list s).takeWhile (· ≠ x)) : y ∈ ((v.move n).list s).takeWhile (· ≠ x) := by
  by_cases hs : s = v.landing n % twSlots
  · rw [move_list_landing hs, List.takeWhile_cons_of_pos (by simpa using hx)]
    exact List.mem_cons_of_mem _ (mem_takeWhile_erase hy h)
  · rw [move_list_ne hs]
    exact mem_takeWhile_erase hy h

namespace Timely

/-- Putting a node off keeps the trap. -/
theorem trap_move (h : v.Timely) (hd : v.now < v.deadline n) (ht : v.Trap) : (v.move n).Trap := by
  obtain ⟨u, x, hx, hdx, hu, hland, hclear, hfront⟩ := ht
  have hclear' : ∀ t y, v.cursor ≤ t → t + twSlots < twTick v.now (v.deadline x - v.now) →
      y ∈ (v.move n).list (t % twSlots) → v.now < v.deadline y := by
    intro t y htc htl hy
    obtain ⟨rfl, _⟩ | ⟨_, hy⟩ := (mem_move h.nodup).mp hy
    · exact hd
    · exact hclear t y htc htl hy
  by_cases hxn : x = n
  · subst hxn
    have hland' : u + twSlots ≤ v.landing x := hland
    have hle : twSlots ≤ v.landing x := by omega
    have hmod : (v.landing x - twSlots) % twSlots = v.landing x % twSlots := by
      rw [← Nat.add_mod_right, Nat.sub_add_cancel hle]
    refine ⟨v.landing x - twSlots, x, ?_, hdx, ?_, ?_, hclear', fun _ y hy => ?_⟩
    · exact (mem_move h.nodup).mpr (.inl ⟨rfl, hmod⟩)
    · change v.cursor ≤ v.landing x - twSlots
      omega
    · exact (Nat.sub_add_cancel hle).le
    · rw [move_list_landing hmod, List.takeWhile_cons_of_neg (by simp)] at hy
      cases hy
  · refine ⟨u, x, (mem_move h.nodup).mpr (.inr ⟨hxn, hx⟩), hdx, hu, hland, hclear', fun he y hy => ?_⟩
    by_cases hyn : y = n
    · rw [hyn]
      exact hd
    · exact hfront he y (before_of_move (Ne.symm hxn) hyn hy)

/-- A trap after a node is put off was there before. -/
theorem trap_of_move (h : v.Timely) {rest : List Nat} (hl : v.list (v.cursor % twSlots) = n :: rest)
    (hd : v.now < v.deadline n) (ht : (v.move n).Trap) : v.Trap := by
  obtain ⟨u, x, hx, hdx, hu, hland, hclear, hfront⟩ := ht
  change v.cursor ≤ u at hu
  change u + twSlots ≤ twTick v.now (v.deadline x - v.now) at hland
  have hclear' : ∀ t y, v.cursor ≤ t → t + twSlots < twTick v.now (v.deadline x - v.now) →
      y ∈ v.list (t % twSlots) → v.now < v.deadline y := by
    intro t y htc htl hy
    by_cases hyn : y = n
    · rw [hyn]
      exact hd
    · exact hclear t y htc htl ((mem_move h.nodup).mpr (.inr ⟨hyn, hy⟩))
  by_cases hxn : x = n
  · subst hxn
    refine ⟨v.cursor, x, hl ▸ List.mem_cons_self, hd, le_refl _, by omega, hclear', fun _ y hy => ?_⟩
    rw [hl, List.takeWhile_cons_of_neg (by simp)] at hy
    cases hy
  · obtain ⟨hc, _⟩ | ⟨_, hx⟩ := (mem_move h.nodup).mp hx
    · exact absurd hc hxn
    · refine ⟨u, x, hx, hdx, hu, hland, hclear', fun he y hy => ?_⟩
      by_cases hyn : y = n
      · rw [hyn]
        exact hd
      · exact hfront he y (before_move (Ne.symm hxn) hyn hy)

/-- A trapped sweep has another round, and is trapped after it. -/
theorem trap_round (h : v.Timely) (ht : v.Trap) : ∃ v', v.round (v.now / twTickMs) = .again v' ∧
    v'.now = v.now ∧ v'.Timely ∧ v'.Trap := by
  obtain ⟨u, x, hx, hdx, hu, hland, hclear, hfront⟩ := id ht
  have hlater := (twTick_later (h.short x ⟨_, hx⟩).1 hdx).2
  obtain ⟨n, rest, hl, hd, hr⟩ | ⟨n, rest, hl, hd, hr⟩ | ⟨hl, hc, hr⟩ | ⟨hl, hc, hr⟩ := h.round_cases (v.now / twTickMs)
  · have hn : n ∈ v.list (v.cursor % twSlots) := hl ▸ List.mem_cons_self
    exact ⟨_, hr, rfl, h.move hn hd, h.trap_move hd ht⟩
  · refine absurd hd (Nat.not_le.mpr ?_)
    by_cases hlt : v.cursor + twSlots < twTick v.now (v.deadline x - v.now)
    · exact hclear v.cursor n (le_refl _) hlt (hl ▸ List.mem_cons_self)
    · obtain rfl : u = v.cursor := by omega
      by_cases hnx : n = x
      · rw [hnx]
        exact hdx
      · refine hfront (by omega) n ?_
        rw [hl, List.takeWhile_cons_of_pos (by simpa using hnx)]
        exact List.mem_cons_self
  · omega
  · refine ⟨_, hr, rfl, h.advance hl hc, u, x, hx, hdx, ?_, hland, fun t y htc => hclear t y (Nat.le_of_succ_le htc), hfront⟩
    refine Nat.lt_of_le_of_ne hu fun e => ?_
    rw [← e, hl] at hx
    cases hx

/-- A trapped sweep never ends. -/
theorem trap_endless (h : v.Timely) (ht : v.Trap) (fuel : Nat) : v.sweep (v.now / twTickMs) fuel = none := by
  induction fuel generalizing v with
  | zero => rfl
  | succ fuel ih =>
    obtain ⟨v', hr, hnow, hv', ht'⟩ := h.trap_round ht
    unfold TwView.sweep
    rw [hr]
    have := ih hv' ht'
    rw [hnow] at this
    exact this

/-- Out of a trap, a node that is put off leaves the slot under the cursor. -/
theorem landing_ne (h : v.Timely) (hwin : v.now / twTickMs < v.cursor + twSlots) {rest : List Nat}
    (hl : v.list (v.cursor % twSlots) = n :: rest) (hd : v.now < v.deadline n) (ht : ¬ v.Trap) :
    v.cursor % twSlots ≠ v.landing n % twSlots := by
  have hn : n ∈ v.list (v.cursor % twSlots) := hl ▸ List.mem_cons_self
  obtain ⟨hlo, hhi⟩ := twTick_later (h.short n ⟨_, hn⟩).1 hd
  have hb := h.behind
  intro he
  have heq : v.cursor + twSlots = twTick v.now (v.deadline n - v.now) := by
    unfold landing twSlots at *
    omega
  refine ht ⟨v.cursor, n, hn, hd, le_refl _, heq.le, fun t y htc htl => ?_, fun _ y hy => ?_⟩
  · omega
  · rw [hl, List.takeWhile_cons_of_neg (by simp)] at hy
    cases hy

theorem sweep_succ_again {fuel nowTick : Nat} {v' : TwView} (hr : v.round nowTick = .again v') :
    v.sweep nowTick (fuel + 1) = v'.sweep nowTick fuel := by
  rw [TwView.sweep, hr]

theorem sweep_one_done {nowTick : Nat} {v' : TwView} {ret : Option Nat} (hr : v.round nowTick = .done v' ret) :
    (v.sweep nowTick 1).isSome := by
  rw [TwView.sweep, hr]
  rfl

/-- Out of a trap, the sweep ends: each round shortens the list under the cursor or moves the cursor on. -/
theorem sweep_ends (h : v.Timely) (hwin : v.now / twTickMs < v.cursor + twSlots) (ht : ¬ v.Trap) :
    ∃ fuel, (v.sweep (v.now / twTickMs) fuel).isSome := by
  induction hk : v.now / twTickMs - v.cursor using Nat.strong_induction_on generalizing v with
  | _ k ihk =>
  induction hlen : (v.list (v.cursor % twSlots)).length generalizing v with
  | zero =>
    obtain ⟨n, rest, hl, hd, hr⟩ | ⟨n, rest, hl, hd, hr⟩ | ⟨hl, hc, hr⟩ | ⟨hl, hc, hr⟩ :=
      h.round_cases (v.now / twTickMs)
    · rw [hl] at hlen
      cases hlen
    · exact ⟨1, sweep_one_done hr⟩
    · exact ⟨1, sweep_one_done hr⟩
    · have ht' : ¬ { v with cursor := v.cursor + 1 : TwView }.Trap := by
        rintro ⟨u, x, hx, hdx, hu, hland, hclear, hfront⟩
        refine ht ⟨u, x, hx, hdx, Nat.le_of_succ_le hu, hland, fun t y htc htl hy => ?_, hfront⟩
        obtain rfl | htc := Nat.eq_or_lt_of_le htc
        · rw [hl] at hy
          cases hy
        · exact hclear t y htc htl hy
      obtain ⟨fuel, hfuel⟩ := ihk (v.now / twTickMs - (v.cursor + 1)) (by omega) (h.advance hl hc)
        (by change v.now / twTickMs < v.cursor + 1 + twSlots; omega) ht' rfl
      exact ⟨fuel + 1, sweep_succ_again hr ▸ hfuel⟩
  | succ len ihl =>
    obtain ⟨n, rest, hl, hd, hr⟩ | ⟨n, rest, hl, hd, hr⟩ | ⟨hl, hc, hr⟩ | ⟨hl, hc, hr⟩ :=
      h.round_cases (v.now / twTickMs)
    · have hne := h.landing_ne hwin hl hd ht
      have hrest : (v.move n).list (v.cursor % twSlots) = rest := by
        rw [move_list_ne hne, hl, List.erase_cons_head]
      have hlen' : ((v.move n).list ((v.move n).cursor % twSlots)).length = len := by
        change ((v.move n).list (v.cursor % twSlots)).length = len
        rw [hl, List.length_cons] at hlen
        rw [hrest]
        omega
      have hmove := h.move (hl ▸ List.mem_cons_self : n ∈ v.list (v.cursor % twSlots)) hd
      obtain ⟨fuel, hfuel⟩ := ihl hmove hwin (fun hc => ht (h.trap_of_move hl hd hc)) hk hlen'
      exact ⟨fuel + 1, sweep_succ_again hr ▸ hfuel⟩
    · exact ⟨1, sweep_one_done hr⟩
    · exact ⟨1, sweep_one_done hr⟩
    · rw [hl] at hlen
      cases hlen

end Timely

end TwView

namespace TwSound

variable {nslots : UInt32} {w : TimeWheel} {v : TwView} {now : Nat}

theorem trap_iff (h : TwSound nslots w v) : TwTrap w now ↔ (v.enter now).Trap := by
  have hshow := h.shows.enter now
  have hlist : w.list = (v.enter now).list := funext h.list_eq
  have hdead : (fun n => (w.node n).deadline) = (v.enter now).deadline := funext h.shows.deadline
  unfold TwTrap TwView.Trap
  rw [hlist, hdead, hshow.now, hshow.cursor]

theorem expire_endless (h : TwSound nslots w v) (hnow : now < 2 ^ 64) (ht : TwTrap w now) (fuel : Nat) :
    twExpire fuel w now = none := by
  have hnone := (h.timely.enter hnow).trap_endless (h.trap_iff.mp ht) fuel
  obtain ⟨hw, _⟩ | ⟨w', v', ret, _, hs, _⟩ := h.expire hnow fuel
  · exact hw
  · exact absurd (hs.symm.trans hnone) (by simp)

theorem expire_ends (h : TwSound nslots w v) (hnow : now < 2 ^ 64) (ht : ¬ TwTrap w now) :
    ∃ fuel, (twExpire fuel w now).isSome := by
  have hwin : (v.enter now).now / twTickMs < (v.enter now).cursor + twSlots := by
    unfold TwView.enter
    dsimp only
    split
    next =>
      unfold twSlots
      omega
    next => omega
  obtain ⟨fuel, hfuel⟩ := (h.timely.enter hnow).sweep_ends hwin fun hc => ht (h.trap_iff.mpr hc)
  refine ⟨fuel, ?_⟩
  obtain ⟨_, hs⟩ | ⟨w', v', ret, hw, _, _⟩ := h.expire hnow fuel
  · exact absurd (hs ▸ hfuel : (none : Option (TwView × Option Nat)).isSome = true) (by simp)
  · rw [hw]
    rfl

end TwSound

/-- From every reachable wheel, an expiry ends exactly when its sweep is not trapped. -/
theorem wheel_sweep_ends_iff {nslots : UInt32} {start now : Nat} {w : TimeWheel} (hstart : start < 2 ^ 64)
    (h : TwReachable nslots start w) (hnow : now < 2 ^ 64) :
    (∃ fuel, (twExpire fuel w now).isSome) ↔ ¬ TwTrap w now := by
  obtain ⟨v, hv⟩ := TwReachable.sound hstart h
  refine ⟨fun ⟨fuel, hsome⟩ ht => ?_, hv.expire_ends hnow⟩
  rw [hv.expire_endless hnow ht fuel] at hsome
  cases hsome

theorem wheel_sweep_ends_sample : ¬ TwTrap crowd 24 :=
  (wheel_sweep_ends_iff (by decide) ⟨_, crowd_run⟩ (by decide)).mp ⟨40, rfl⟩

/-- A node armed for 60000 ms on a fresh wheel waits in slot 1022; an expiry at 8185 puts it off into that slot again. -/
theorem wheel_sweep_endless : ∃ w, TwRun 1 0 [.arm 0 0 60000] w ∧ ∀ fuel, twExpire fuel w 8185 = none := by
  have hrun : TwRun 1 0 ([] ++ [TwAct.arm 0 0 60000]) (twArm (twInit 0) 0 0 60000) :=
    .snoc .nil ⟨by decide, by decide, by decide⟩ rfl
  obtain ⟨v, hv, _⟩ := TwRun.sound (by decide) hrun
  have honly : ∀ y, ((twArm (twInit 0) 0 0 60000).node y).armed = true → y = 0 := by
    intro y hy
    by_contra hne
    simp [twArm, twInit, TimeWheel.setSlot, hne] at hy
  have hlate : ∀ s, ∀ y ∈ (twArm (twInit 0) 0 0 60000).list s,
      8185 < ((twArm (twInit 0) 0 0 60000).node y).deadline := by
    intro s y hy
    rw [honly y ((hv.conserved.mem s y).mp hy).1]
    decide
  refine ⟨_, hrun, hv.expire_endless (by decide) ⟨1022, 0, ?_, ?_, ?_, ?_, fun t y _ _ hy => ?_, fun _ y hy => ?_⟩⟩
  · decide
  · decide
  · decide
  · decide
  · exact hlate _ y hy
  · exact hlate _ y (List.takeWhile_subset _ hy)

end Qanat
