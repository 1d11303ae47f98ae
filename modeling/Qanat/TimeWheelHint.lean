import Qanat.TimeWheelRun

namespace Qanat

/-- The hint sleeps neither past `cap` nor past a deadline, and not at all on a due node of a reached tick. -/
def HintKept (w : TimeWheel) (now cap : Nat) : Prop :=
  twNextTimeout w now cap ≤ cap ∧
  (∀ n, (w.node n).armed = true → max now w.now < (w.node n).deadline →
    twNextTimeout w now cap ≤ (w.node n).deadline - max now w.now) ∧
  (∀ t n, w.cursor ≤ t → t ≤ max now w.now / twTickMs → n ∈ w.list (t % twSlots) →
    (w.node n).deadline ≤ max now w.now → twNextTimeout w now cap = 0)

/-- With the sweep caught up, a node due before `cap` is out stands in the slot behind the scanned ones, or its
deadline is the saturated one, and no scanned node has an earlier deadline to stand for it. -/
def HintMisses (w : TimeWheel) (now cap : Nat) : Prop :=
  max now w.now / twTickMs ≤ w.cursor ∧ ∃ n, (w.node n).armed = true ∧ (w.node n).deadline < max now w.now + cap ∧
    ((w.node n).deadline = 2 ^ 64 - 1 ∧
        (max now w.now < (w.node n).deadline ∨ (w.node n).slot = max now w.now / twTickMs % twSlots) ∨
      max now w.now < (w.node n).deadline ∧ cap / twTickMs + 2 < twSlots ∧
        (w.node n).slot = (max now w.now / twTickMs + (cap / twTickMs + 2)) % twSlots) ∧
    ∀ i m, i < twAhead cap → m ∈ w.list ((max now w.now / twTickMs + i) % twSlots) →
      (w.node m).deadline ≤ (w.node n).deadline → (w.node m).deadline = 2 ^ 64 - 1

section Least

variable {α : Type*} (f : α → Nat)

theorem foldl_least (l : List α) (init : Nat) :
    (l.foldl (fun b x => if f x < b then f x else b) init ≤ init) ∧
    (∀ x ∈ l, l.foldl (fun b x => if f x < b then f x else b) init ≤ f x) ∧
    (l.foldl (fun b x => if f x < b then f x else b) init = init ∨
      ∃ x ∈ l, l.foldl (fun b x => if f x < b then f x else b) init = f x) := by
  induction l generalizing init with
  | nil => exact ⟨le_refl _, by simp, .inl rfl⟩
  | cons a l ih =>
    rw [List.foldl_cons]
    obtain ⟨hle, hall, hat⟩ := ih (if f a < init then f a else init)
    have hmin : (if f a < init then f a else init) ≤ init ∧ (if f a < init then f a else init) ≤ f a ∧
        ((if f a < init then f a else init) = init ∨ (if f a < init then f a else init) = f a) := by
      split
      next h => exact ⟨h.le, le_refl _, .inr rfl⟩
      next h => exact ⟨le_refl _, Nat.not_lt.mp h, .inl rfl⟩
    refine ⟨hle.trans hmin.1, fun x hx => ?_, ?_⟩
    · obtain rfl | hx := List.mem_cons.mp hx
      · exact hle.trans hmin.2.1
      · exact hall x hx
    · obtain hat | ⟨x, hx, hat⟩ := hat
      · exact hmin.2.2.imp hat.trans fun h => ⟨a, List.mem_cons_self, hat.trans h⟩
      · exact .inr ⟨x, List.mem_cons_of_mem _ hx, hat⟩

end Least

/-- The soonest deadline of the scanned slots. -/
theorem twSoonest_spec (w : TimeWheel) (nowTick ahead : Nat) :
    twSoonest w nowTick ahead ≤ 2 ^ 64 - 1 ∧
    (∀ i n, i < ahead → n ∈ w.list ((nowTick + i) % twSlots) → twSoonest w nowTick ahead ≤ (w.node n).deadline) ∧
    (twSoonest w nowTick ahead = 2 ^ 64 - 1 ∨
      ∃ i n, i < ahead ∧ n ∈ w.list ((nowTick + i) % twSlots) ∧ twSoonest w nowTick ahead = (w.node n).deadline) := by
  obtain ⟨hle, hall, hat⟩ := foldl_least (fun n => (w.node n).deadline)
    ((List.range ahead).flatMap fun i => w.list ((nowTick + i) % twSlots)) (2 ^ 64 - 1)
  rw [List.foldl_flatMap] at hle hall hat
  refine ⟨hle, fun i n hi hn => ?_, hat.imp_right fun ⟨n, hn, heq⟩ => ?_⟩
  · exact hall n (List.mem_flatMap.mpr ⟨i, List.mem_range.mpr hi, hn⟩)
  · obtain ⟨i, hi, hn⟩ := List.mem_flatMap.mp hn
    exact ⟨i, n, List.mem_range.mp hi, hn, heq⟩

theorem twAhead_pos (cap : Nat) : 0 < twAhead cap := by
  unfold twAhead
  split
  next => decide
  next => exact Nat.succ_pos _

theorem hintClock_eq (w : TimeWheel) (now : Nat) : (if now < w.now then w.now else now) = max now w.now := by
  split
  next h => rw [max_eq_right h.le]
  next h => rw [max_eq_left (Nat.not_lt.mp h)]

theorem twNextTimeout_behind {w : TimeWheel} {now : Nat} (cap : Nat) (ha : w.armed ≠ 0)
    (hc : ¬ max now w.now / twTickMs ≤ w.cursor) : twNextTimeout w now cap = 0 := by
  unfold twNextTimeout
  rw [if_neg ha]
  simp only [hintClock_eq]
  exact if_pos (Nat.not_le.mp hc)

/-- The hint of a wheel whose sweep has caught up. -/
theorem twNextTimeout_scan {w : TimeWheel} {now cap : Nat} (ha : w.armed ≠ 0)
    (hc : max now w.now / twTickMs ≤ w.cursor) : twNextTimeout w now cap =
      if twSoonest w (max now w.now / twTickMs) (twAhead cap) = 2 ^ 64 - 1 then cap
      else min (twSoonest w (max now w.now / twTickMs) (twAhead cap) - max now w.now) cap := by
  unfold twNextTimeout
  rw [if_neg ha]
  simp only [hintClock_eq, Nat.not_lt.mpr hc, if_false]
  split
  next => rfl
  next =>
    split
    next => omega
    next =>
      split
      next => omega
      next => omega

theorem twNextTimeout_le (w : TimeWheel) (now cap : Nat) : twNextTimeout w now cap ≤ cap := by
  by_cases ha : w.armed = 0
  · exact (if_pos ha : twNextTimeout w now cap = cap).le
  · by_cases hc : max now w.now / twTickMs ≤ w.cursor
    · rw [twNextTimeout_scan ha hc]
      split
      next => exact le_refl _
      next => exact min_le_right _ _
    · rw [twNextTimeout_behind cap ha hc]
      exact Nat.zero_le _

/-- A node due before `cap` is out stands in a scanned slot or in the one behind them. -/
theorem slot_window {d cap m cursor e now : Nat} (hcur : m / twTickMs ≤ cursor) (hce : cursor ≤ e) (hnow : now ≤ m)
    (hd : d < m + cap) (he : e ≤ tickOf d ∨ e ≤ now / twTickMs) :
    (∃ i < twAhead cap, e % twSlots = (m / twTickMs + i) % twSlots) ∨
      cap / twTickMs + 2 < twSlots ∧ e = m / twTickMs + (cap / twTickMs + 2) := by
  unfold tickOf twTickMs at *
  unfold twAhead twSlots twTickMs
  by_cases hcap : 1024 < cap / 8 + 2
  · refine .inl ⟨(e - m / 8) % 1024, ?_, ?_⟩
    · rw [if_pos hcap]
      omega
    · omega
  · rw [if_neg hcap]
    by_cases hlt : e < m / 8 + (cap / 8 + 2)
    · exact .inl ⟨e - m / 8, by omega, by omega⟩
    · by_cases hlast : cap / 8 + 2 < 1024
      · exact .inr ⟨hlast, by omega⟩
      · exact .inl ⟨(e - m / 8) % 1024, by omega, by omega⟩

namespace TwSound

variable {nslots : UInt32} {w : TimeWheel} {v : TwView}

theorem deadline_lt (h : TwSound nslots w v) {n : Nat} (ha : (w.node n).armed = true) :
    (w.node n).deadline < 2 ^ 64 := by
  rw [h.shows.deadline]
  exact (h.timely.short n (h.shows.armed_iff.mp ha)).1

theorem armed_pos (h : TwSound nslots w v) {n : Nat} (ha : (w.node n).armed = true) : w.armed ≠ 0 := by
  have hin : n ∈ w.waiting nslots := mem_waiting.mpr ⟨h.pool n ha, ha⟩
  rw [h.count]
  exact (Finset.card_pos.mpr ⟨n, hin⟩).ne'

section Scan

variable (h : TwSound nslots w v) {now cap n : Nat} (hcur : max now w.now / twTickMs ≤ w.cursor)
  (ha : (w.node n).armed = true)
include h hcur ha

/-- A deadline that the hint sleeps past is missed. -/
theorem misses_of_late (hd : max now w.now < (w.node n).deadline)
    (hlate : (w.node n).deadline - max now w.now < twNextTimeout w now cap) : HintMisses w now cap := by
  rw [twNextTimeout_scan (h.armed_pos ha) hcur] at hlate
  obtain ⟨_, hsall, _⟩ := twSoonest_spec w (max now w.now / twTickMs) (twAhead cap)
  have hlt := h.deadline_lt ha
  have hsoon : twSoonest w (max now w.now / twTickMs) (twAhead cap) = 2 ^ 64 - 1 ∨
      (w.node n).deadline < twSoonest w (max now w.now / twTickMs) (twAhead cap) := by
    split at hlate
    next heq => exact .inl heq
    next => exact .inr (by omega)
  have hcap : (w.node n).deadline < max now w.now + cap := by
    split at hlate
    next => omega
    next => omega
  refine ⟨hcur, n, ha, hcap, ?_, fun i m hi hm hle => ?_⟩
  · have hn := (h.shows.mem _ n).mpr ⟨ha, rfl⟩
    obtain ⟨e, he, hce, hde⟩ := h.timely.placed _ n hn
    rw [← h.shows.deadline, ← h.shows.now] at hde
    rw [← h.shows.cursor] at hce
    obtain ⟨i, hi, hslot⟩ | ⟨hlast, hslot⟩ := slot_window hcur hce (le_max_right _ _) hcap hde
    · rw [← h.list_eq, ← he, hslot] at hn
      have := hsall i n hi hn
      exact .inl ⟨by omega, .inl hd⟩
    · exact .inr ⟨hd, hlast, by rw [← he, hslot]⟩
  · have := hsall i m hi hm
    have := h.deadline_lt ((h.conserved.mem _ m).mp hm).1
    omega

/-- A due node of the current tick that the hint sleeps on is missed. -/
theorem misses_of_due (hnow : now < 2 ^ 64) (hn : n ∈ w.list (max now w.now / twTickMs % twSlots))
    (hdue : (w.node n).deadline ≤ max now w.now) (hlate : twNextTimeout w now cap ≠ 0) : HintMisses w now cap := by
  rw [twNextTimeout_scan (h.armed_pos ha) hcur] at hlate
  obtain ⟨_, hsall, _⟩ := twSoonest_spec w (max now w.now / twTickMs) (twAhead cap)
  have hm : max now w.now < 2 ^ 64 := max_lt hnow (h.shows.now ▸ h.timely.clock)
  have hle := hsall 0 n (twAhead_pos cap) hn
  split at hlate
  next heq =>
    refine ⟨hcur, n, ha, by omega, .inl ⟨by omega, .inr ((h.conserved.mem _ n).mp hn).2⟩, fun i m hi hm _ => ?_⟩
    have := hsall i m hi hm
    have := h.deadline_lt ((h.conserved.mem _ m).mp hm).1
    omega
  next => omega

end Scan

theorem not_misses (h : TwSound nslots w v) {now cap : Nat} (hnow : now < 2 ^ 64) (hk : HintKept w now cap) :
    ¬ HintMisses w now cap := by
  rintro ⟨hcur, n, ha, hcap, hkind, hnone⟩
  obtain ⟨_, hlater, hdue⟩ := hk
  have hm : max now w.now < 2 ^ 64 := max_lt hnow (h.shows.now ▸ h.timely.clock)
  have hb : w.cursor ≤ max now w.now / twTickMs := by
    rw [h.shows.cursor]
    refine h.timely.behind.trans (Nat.div_le_div_right ?_)
    rw [← h.shows.now]
    exact le_max_right _ _
  have hval := @twNextTimeout_scan w now cap (h.armed_pos ha) hcur
  obtain ⟨hsle, _, hsat⟩ := twSoonest_spec w (max now w.now / twTickMs) (twAhead cap)
  have hsoon : twSoonest w (max now w.now / twTickMs) (twAhead cap) = 2 ^ 64 - 1 ∨
      (w.node n).deadline < twSoonest w (max now w.now / twTickMs) (twAhead cap) := by
    by_contra hc
    push Not at hc
    obtain ⟨i, m, hi, hmem, heq⟩ := hsat.resolve_left hc.1
    exact hc.1 (heq.trans (hnone i m hi hmem (heq ▸ hc.2)))
  by_cases hd : max now w.now < (w.node n).deadline
  · have hle := hlater n ha hd
    rw [hval] at hle
    split at hle
    next => omega
    next hne =>
      have := hsoon.resolve_left hne
      omega
  · obtain ⟨hmax, hslot⟩ | ⟨hc, _⟩ := hkind
    · have hn := (h.conserved.mem _ n).mpr ⟨ha, hslot.resolve_left hd⟩
      have hzero := hdue (max now w.now / twTickMs) n hb (le_refl _) hn (Nat.not_lt.mp hd)
      rw [hval, if_pos (hsoon.resolve_right (by omega))] at hzero
      omega
    · exact hd hc

/-- The hint of a sound wheel is kept exactly when it misses no node. -/
theorem hint_iff (h : TwSound nslots w v) {now : Nat} (hnow : now < 2 ^ 64) (cap : Nat) :
    HintKept w now cap ↔ ¬ HintMisses w now cap := by
  refine ⟨h.not_misses hnow, fun hmiss => ⟨twNextTimeout_le w now cap, fun n ha hd => ?_, fun t n hct ht hn hd => ?_⟩⟩
  · by_cases hcur : max now w.now / twTickMs ≤ w.cursor
    · by_contra hc
      exact hmiss (h.misses_of_late hcur ha hd (Nat.not_le.mp hc))
    · rw [twNextTimeout_behind cap (h.armed_pos ha) hcur]
      exact Nat.zero_le _
  · have ha := ((h.conserved.mem _ n).mp hn).1
    by_cases hcur : max now w.now / twTickMs ≤ w.cursor
    · obtain rfl : t = max now w.now / twTickMs := by omega
      by_contra hc
      exact hmiss (h.misses_of_due hcur ha hnow hn hd hc)
    · exact twNextTimeout_behind cap (h.armed_pos ha) hcur

end TwSound

/-- On every reachable wheel the hint is kept exactly when it misses no node. -/
theorem wheel_hint_iff {nslots : UInt32} {start now cap : Nat} {w : TimeWheel} (hstart : start < 2 ^ 64)
    (h : TwReachable nslots start w) (hnow : now < 2 ^ 64) : HintKept w now cap ↔ ¬ HintMisses w now cap := by
  obtain ⟨v, hv⟩ := TwReachable.sound hstart h
  exact hv.hint_iff hnow cap

/-- A node put off to a slot the hint does not scan, and two that are later still. -/
def hintActs : List TwAct :=
  [.arm 0 7 2, .arm 1 7 300, .arm 0 7 10, .arm 2 7 40, .arm 2 7 90]

theorem wheel_hint_sample : ∃ w, TwRun 3 7 hintActs w ∧ HintMisses w 7 11 := by
  have hguard : ∀ a ∈ hintActs, ∀ w, TwGuard 3 w a := by
    unfold hintActs TwGuard
    simp
  have hrun : TwRun 3 7 hintActs ((hintActs.foldlM twStep (twInit 7)).getD (twInit 7)) :=
    Transition.Run.nil.actions hguard rfl
  refine ⟨_, hrun, ?_⟩
  by_contra hc
  have hkept := (wheel_hint_iff (by decide) ⟨_, hrun⟩ (by decide)).mpr hc
  exact absurd (hkept.2.1 0 (by decide) (by decide)) (by decide)

/-- At clock 7 a deadline of 17 stands in slot 3, and a hint with a cap of 11 scans slots 0, 1 and 2. -/
theorem wheel_hint_oversleeps : ∃ w, TwRun 1 7 [.arm 0 7 10] w ∧ ¬ HintKept w 7 11 := by
  have hrun : TwRun 1 7 ([] ++ [TwAct.arm 0 7 10]) (twArm (twInit 7) 0 7 10) :=
    .snoc .nil ⟨by decide, by decide, by decide⟩ rfl
  refine ⟨_, hrun, fun hkept => ?_⟩
  exact absurd (hkept.2.1 0 (by decide) (by decide)) (by decide)

end Qanat
