import Qanat.TimeWheelView

namespace Qanat

/-- The first tick at or after a deadline. -/
def tickOf (deadline : Nat) : Nat :=
  (deadline + 7) / twTickMs

theorem twDeadline_lt {now after : Nat} (hnow : now < 2 ^ 64) : twDeadline now after < 2 ^ 64 := by
  unfold twDeadline
  split
  next => omega
  next => omega

theorem twDeadline_le {now after : Nat} (hnow : now < 2 ^ 64) : twDeadline now after ≤ now + after := by
  unfold twDeadline
  split
  next => omega
  next => omega

theorem twDeadline_sub {now d : Nat} (hd : d < 2 ^ 64) (h : now < d) : twDeadline now (d - now) = d := by
  unfold twDeadline
  split
  next => omega
  next => omega

theorem twTick_eq (now after : Nat) : twTick now after = tickOf (twDeadline now (min after (twSpanMs - 2 * twTickMs))) := by
  have hmin : (if twSpanMs - 2 * twTickMs < after then twSpanMs - 2 * twTickMs else after) =
      min after (twSpanMs - 2 * twTickMs) := by
    split
    next h => rw [min_eq_right h.le]
    next h => rw [min_eq_left (Nat.not_lt.mp h)]
  unfold twTick tickOf
  rw [hmin]
  generalize twDeadline now (min after (twSpanMs - 2 * twTickMs)) = d
  dsimp only
  unfold twTickMs
  split
  next => omega
  next => omega

/-- A node is placed between the current tick and the tick of its deadline. -/
theorem twTick_bounds {now after : Nat} (hnow : now < 2 ^ 64) :
    now / twTickMs ≤ twTick now after ∧ twTick now after ≤ tickOf (twDeadline now after) := by
  rw [twTick_eq]
  unfold tickOf twDeadline twSpanMs twSlots twTickMs
  split
  next =>
    split
    next => omega
    next => omega
  next =>
    split
    next => omega
    next => omega

/-- A node that is put off goes past the current tick and stays within one revolution. -/
theorem twTick_later {now d : Nat} (hd : d < 2 ^ 64) (h : now < d) :
    now / twTickMs < twTick now (d - now) ∧ twTick now (d - now) < now / twTickMs + twSlots := by
  rw [twTick_eq]
  unfold tickOf twDeadline twSpanMs twSlots twTickMs
  split
  next => omega
  next => omega

namespace TwView

variable {v : TwView} {n : Nat}

def Waits (v : TwView) (n : Nat) : Prop :=
  ∃ s, n ∈ v.list s

/-- Every waiting node has a tick at its slot that the sweep has not passed and reaches in time. -/
structure Timely (v : TwView) : Prop where
  nodup : ∀ s, (v.list s).Nodup
  apart : ∀ s t n, n ∈ v.list s → n ∈ v.list t → s = t
  placed : ∀ s n, n ∈ v.list s → ∃ e, e % twSlots = s ∧ v.cursor ≤ e ∧
    (e ≤ tickOf (v.deadline n) ∨ e ≤ v.now / twTickMs)
  short : ∀ n, v.Waits n → v.deadline n < 2 ^ 64 ∧ v.deadline n < v.now + 2 ^ 32
  behind : v.cursor ≤ v.now / twTickMs
  clock : v.now < 2 ^ 64

/-- The slot a node is put off to. -/
def landing (v : TwView) (n : Nat) : Nat :=
  twTick v.now (v.deadline n - v.now)

def move (v : TwView) (n : Nat) : TwView :=
  { v with list := fun s => if s = v.landing n % twSlots then n :: (v.list s).erase n else (v.list s).erase n }

theorem arm_deadline_self (v : TwView) (n now after : Nat) :
    (v.arm n now after).deadline n = twDeadline (max v.now now) after :=
  Function.update_self ..

theorem arm_deadline_ne (v : TwView) {n m : Nat} (h : m ≠ n) (now after : Nat) :
    (v.arm n now after).deadline m = v.deadline m :=
  Function.update_of_ne h ..

theorem mem_disarm (hv : ∀ s, (v.list s).Nodup) {s m : Nat} : m ∈ (v.disarm n).list s ↔ m ≠ n ∧ m ∈ v.list s :=
  (hv s).mem_erase_iff

theorem mem_arm (hv : ∀ s, (v.list s).Nodup) {now after s m : Nat} : m ∈ (v.arm n now after).list s ↔
    m = n ∧ s = twTick (max v.now now) after % twSlots ∨ m ≠ n ∧ m ∈ v.list s := by
  change m ∈ (if s = _ then _ else _) ↔ _
  by_cases hs : s = twTick (max v.now now) after % twSlots
  · rw [if_pos hs, List.mem_cons, (hv s).mem_erase_iff]
    tauto
  · rw [if_neg hs, (hv s).mem_erase_iff]
    tauto

theorem waits_disarm (hv : ∀ s, (v.list s).Nodup) {m : Nat} : (v.disarm n).Waits m ↔ m ≠ n ∧ v.Waits m := by
  unfold Waits
  simp only [mem_disarm hv]
  tauto

theorem waits_arm (hv : ∀ s, (v.list s).Nodup) {now after m : Nat} : (v.arm n now after).Waits m ↔ m = n ∨ v.Waits m := by
  unfold Waits
  simp only [mem_arm hv]
  by_cases hm : m = n
  · simp [hm]
  · simp [hm]

/-- A completed sweep takes off the node that it returns, and only that one. -/
structure Swept (v v' : TwView) (ret : Option Nat) : Prop where
  timely : v'.Timely
  now : v'.now = v.now
  deadline : v'.deadline = v.deadline
  waits : ∀ m, v'.Waits m ↔ v.Waits m ∧ ret ≠ some m
  due : ∀ n, ret = some n → v.Waits n ∧ v.deadline n ≤ v.now
  caughtUp : ret = none → ∀ n, v'.Waits n → v.now / twTickMs < tickOf (v.deadline n)

namespace Timely

theorem disarm (h : v.Timely) (n : Nat) : (v.disarm n).Timely where
  nodup s := (h.nodup s).erase n
  apart s t m hs ht := h.apart s t m (List.mem_of_mem_erase hs) (List.mem_of_mem_erase ht)
  placed s m hs := h.placed s m (List.mem_of_mem_erase hs)
  short m hm := h.short m ((waits_disarm h.nodup).mp hm).2
  behind := h.behind
  clock := h.clock

theorem arm (h : v.Timely) {now after : Nat} (hnow : now < 2 ^ 64) (hafter : after < 2 ^ 32) :
    (v.arm n now after).Timely := by
  have hclock : max v.now now < 2 ^ 64 := max_lt h.clock hnow
  have hle : v.now / twTickMs ≤ max v.now now / twTickMs := Nat.div_le_div_right (le_max_left _ _)
  refine ⟨fun s => ?_, fun s t m hs ht => ?_, fun s m hs => ?_, fun m hm => ?_, h.behind.trans hle, hclock⟩
  · change (if s = _ then _ else _ : List Nat).Nodup
    split
    next => exact List.nodup_cons.mpr ⟨(h.nodup s).not_mem_erase, (h.nodup s).erase n⟩
    next => exact (h.nodup s).erase n
  · obtain ⟨hm, hs⟩ | ⟨hm, hs⟩ := (mem_arm h.nodup).mp hs
    · obtain ⟨_, ht⟩ | ⟨hm', _⟩ := (mem_arm h.nodup).mp ht
      · rw [hs, ht]
      · exact absurd hm hm'
    · obtain ⟨hm', _⟩ | ⟨_, ht⟩ := (mem_arm h.nodup).mp ht
      · exact absurd hm' hm
      · exact h.apart s t m hs ht
  · obtain ⟨hm, hslot⟩ | ⟨hm, hold⟩ := (mem_arm h.nodup).mp hs
    · obtain ⟨hlo, hhi⟩ := @twTick_bounds _ after hclock
      refine ⟨_, hslot.symm, h.behind.trans (hle.trans hlo), .inl ?_⟩
      rw [hm, arm_deadline_self]
      exact hhi
    · obtain ⟨e, he, hc, hd⟩ := h.placed s m hold
      refine ⟨e, he, hc, ?_⟩
      rw [arm_deadline_ne v hm]
      exact hd.imp_right fun hd => hd.trans hle
  · change _ ∧ _ < max v.now now + 2 ^ 32
    by_cases hmn : m = n
    · have := @twDeadline_le _ after hclock
      rw [hmn, arm_deadline_self]
      exact ⟨twDeadline_lt hclock, by omega⟩
    · obtain ⟨hd, hs⟩ := h.short m (((waits_arm h.nodup).mp hm).resolve_left hmn)
      rw [arm_deadline_ne v hmn]
      exact ⟨hd, by omega⟩

theorem advance (h : v.Timely) (hl : v.list (v.cursor % twSlots) = []) (hc : v.cursor < v.now / twTickMs) :
    { v with cursor := v.cursor + 1 : TwView }.Timely := by
  refine ⟨h.nodup, h.apart, fun s m hs => ?_, h.short, hc, h.clock⟩
  obtain ⟨e, he, hle, hd⟩ := h.placed s m hs
  refine ⟨e, he, Nat.lt_of_le_of_ne hle fun heq => ?_, hd⟩
  subst he
  rw [← heq, hl] at hs
  cases hs

theorem enter (h : v.Timely) {now : Nat} (hnow : now < 2 ^ 64) : (v.enter now).Timely := by
  have hle : v.now / twTickMs ≤ max v.now now / twTickMs := Nat.div_le_div_right (le_max_left _ _)
  have hb := h.behind
  refine ⟨h.nodup, h.apart, fun s m hs => ?_, fun m hm => ?_, ?_, max_lt h.clock hnow⟩
  · obtain ⟨e, he, hc, hd⟩ := h.placed s m hs
    unfold TwView.enter
    dsimp only
    split
    next hjump =>
      by_cases hpast : max v.now now / twTickMs - (twSlots - 1) ≤ e
      · exact ⟨e, he, hpast, hd.imp_right fun hd => hd.trans hle⟩
      · obtain ⟨k, hk, hlo, hhi⟩ : ∃ k, k % twSlots = s ∧ max v.now now / twTickMs - (twSlots - 1) ≤ k ∧
            k ≤ max v.now now / twTickMs := by
          unfold twSlots at *
          generalize max v.now now / twTickMs = N at *
          exact ⟨N - (N - e) % 1024, by omega, by omega, by omega⟩
        exact ⟨k, hk, hlo, .inr hhi⟩
    next => exact ⟨e, he, hc, hd.imp_right fun hd => hd.trans hle⟩
  · obtain ⟨hd, hs⟩ := h.short m hm
    refine ⟨hd, hs.trans_le ?_⟩
    exact Nat.add_le_add_right (le_max_left _ _) _
  · unfold TwView.enter
    dsimp only
    split
    next => exact Nat.sub_le _ _
    next => exact hb.trans hle

theorem rearm_eq (h : v.Timely) {s : Nat} (hn : n ∈ v.list s) (hd : v.now < v.deadline n) :
    (v.disarm n).arm n v.now ((v.deadline n - v.now) % 2 ^ 32) = v.move n := by
  obtain ⟨h64, h32⟩ := h.short n ⟨s, hn⟩
  rw [Nat.mod_eq_of_lt (by omega)]
  unfold TwView.arm TwView.disarm TwView.move landing
  simp only [max_self, twDeadline_sub h64 hd, Function.update_eq_self, List.erase_of_not_mem (h.nodup _).not_mem_erase]

theorem move (h : v.Timely) {s : Nat} (hn : n ∈ v.list s) (hd : v.now < v.deadline n) : (v.move n).Timely := by
  rw [← h.rearm_eq hn hd]
  exact (h.disarm n).arm h.clock (Nat.mod_lt _ (by decide))

/-- What a round can do. -/
theorem round_cases (h : v.Timely) (nowTick : Nat) :
    (∃ n rest, v.list (v.cursor % twSlots) = n :: rest ∧ v.now < v.deadline n ∧ v.round nowTick = .again (v.move n)) ∨
    (∃ n rest, v.list (v.cursor % twSlots) = n :: rest ∧ v.deadline n ≤ v.now ∧
      v.round nowTick = .done (v.disarm n) (some n)) ∨
    (v.list (v.cursor % twSlots) = [] ∧ nowTick ≤ v.cursor ∧ v.round nowTick = .done v none) ∨
    (v.list (v.cursor % twSlots) = [] ∧ v.cursor < nowTick ∧
      v.round nowTick = .again { v with cursor := v.cursor + 1 }) := by
  unfold TwView.round
  cases hl : v.list (v.cursor % twSlots) with
  | nil =>
    by_cases hc : nowTick ≤ v.cursor
    · exact .inr (.inr (.inl ⟨rfl, hc, if_pos hc⟩))
    · exact .inr (.inr (.inr ⟨rfl, Nat.not_le.mp hc, if_neg hc⟩))
  | cons n rest =>
    by_cases hd : v.now < v.deadline n
    · refine .inl ⟨n, rest, rfl, hd, ?_⟩
      dsimp only
      rw [if_pos hd, h.rearm_eq (s := v.cursor % twSlots) (by simp [hl]) hd]
    · exact .inr (.inl ⟨n, rest, rfl, Nat.not_lt.mp hd, if_neg hd⟩)

theorem waits_move (h : v.Timely) {s : Nat} (hn : n ∈ v.list s) (hd : v.now < v.deadline n) {m : Nat} :
    (v.move n).Waits m ↔ v.Waits m := by
  rw [← h.rearm_eq hn hd, waits_arm (h.disarm n).nodup, waits_disarm h.nodup]
  by_cases hm : m = n
  · simp only [hm, true_or, true_iff]
    exact ⟨s, hn⟩
  · simp [hm]

/-- At the end of a sweep nothing that waits is due by the tick. -/
theorem caught_up (h : v.Timely) (hl : v.list (v.cursor % twSlots) = []) (hc : v.now / twTickMs ≤ v.cursor)
    (hn : v.Waits n) : v.now / twTickMs < tickOf (v.deadline n) := by
  obtain ⟨s, hs⟩ := hn
  obtain ⟨e, he, hce, hd⟩ := h.placed s n hs
  have hne : e ≠ v.cursor := by
    intro heq
    rw [← he, heq, hl] at hs
    cases hs
  omega

theorem sweep (h : v.Timely) {fuel : Nat} {v' : TwView} {ret : Option Nat}
    (hs : v.sweep (v.now / twTickMs) fuel = some (v', ret)) : Swept v v' ret := by
  induction fuel generalizing v with
  | zero => cases hs
  | succ fuel ih =>
    unfold TwView.sweep at hs
    obtain ⟨n, rest, hl, hd, hr⟩ | ⟨n, rest, hl, hd, hr⟩ | ⟨hl, hc, hr⟩ | ⟨hl, hc, hr⟩ := h.round_cases (v.now / twTickMs)
    · rw [hr] at hs
      have hn : n ∈ v.list (v.cursor % twSlots) := hl ▸ List.mem_cons_self
      have hr := ih (h.move hn hd) hs
      refine ⟨hr.timely, hr.now, hr.deadline, fun m => ?_, fun m hm => ?_, hr.caughtUp⟩
      · rw [hr.waits, h.waits_move hn hd]
      · obtain ⟨hw, hdue⟩ := hr.due m hm
        exact ⟨(h.waits_move hn hd).mp hw, hdue⟩
    · rw [hr] at hs
      obtain ⟨rfl, rfl⟩ := Prod.mk.inj (Option.some.inj hs)
      refine ⟨h.disarm n, rfl, rfl, fun m => ?_, fun m hm => ?_, fun e => by cases e⟩
      · have hne : some n ≠ some m ↔ m ≠ n := by
          rw [ne_eq, Option.some.injEq, eq_comm]
        rw [waits_disarm h.nodup, hne, and_comm]
      · obtain rfl := Option.some.inj hm
        exact ⟨⟨_, hl ▸ List.mem_cons_self⟩, hd⟩
    · rw [hr] at hs
      obtain ⟨rfl, rfl⟩ := Prod.mk.inj (Option.some.inj hs)
      refine ⟨h, rfl, rfl, fun m => ?_, fun m hm => ?_, fun _ m hm => h.caught_up hl hc hm⟩
      · simp
      · cases hm
    · rw [hr] at hs
      have hr := ih (h.advance hl hc) hs
      exact ⟨hr.timely, hr.now, hr.deadline, hr.waits, hr.due, hr.caughtUp⟩

end Timely

end TwView

end Qanat
