import Qanat.TimeWheelInv

namespace Qanat

open TwView

def TimeWheel.waiting (nslots : UInt32) (w : TimeWheel) : Finset Nat :=
  (Finset.range nslots.toNat).filter fun n => (w.node n).armed = true

/-- The links show timely lists of nodes of the pool, and the counter counts them. -/
structure TwSound (nslots : UInt32) (w : TimeWheel) (v : TwView) : Prop where
  shows : Shows w v
  timely : v.Timely
  pool : ∀ n, (w.node n).armed = true → n < nslots.toNat
  count : w.armed = (w.waiting nslots).card

theorem Shows.armed_iff {w : TimeWheel} {v : TwView} (h : Shows w v) {n : Nat} :
    (w.node n).armed = true ↔ v.Waits n := by
  refine ⟨fun ha => ⟨_, (h.mem _ n).mpr ⟨ha, rfl⟩⟩, fun ⟨s, hs⟩ => ((h.mem s n).mp hs).1⟩

theorem mem_waiting {nslots : UInt32} {w : TimeWheel} {n : Nat} :
    n ∈ w.waiting nslots ↔ n < nslots.toNat ∧ (w.node n).armed = true := by
  unfold TimeWheel.waiting
  rw [Finset.mem_filter, Finset.mem_range]

theorem card_waiting_le (nslots : UInt32) (w : TimeWheel) : (w.waiting nslots).card ≤ nslots.toNat :=
  (Finset.card_filter_le _ _).trans (Finset.card_range _).le

namespace TwSound

variable {nslots : UInt32} {w : TimeWheel} {v : TwView}

theorem init {start : Nat} (hstart : start < 2 ^ 64) : TwSound nslots (twInit start)
    { list := fun _ => [], deadline := fun _ => 0, now := start, cursor := start / twTickMs } := by
  refine ⟨⟨fun _ => rfl, fun _ => trivial, fun _ => List.nodup_nil, fun s n => ?_, fun _ => rfl, rfl, rfl⟩,
    ⟨fun _ => List.nodup_nil, fun _ _ _ h => ?_, fun _ _ h => ?_, fun _ h => ?_, le_refl _, hstart⟩, fun n h => ?_, ?_⟩
  · simp [twInit]
  · cases h
  · cases h
  · obtain ⟨_, h⟩ := h
    cases h
  · cases h
  · simp [TimeWheel.waiting, twInit]

theorem disarm (h : TwSound nslots w v) (n : Nat) : TwSound nslots (twDisarm w n) (v.disarm n) := by
  have hshow := h.shows.disarm n
  have harmed : ∀ m, ((twDisarm w n).node m).armed = true ↔ m ≠ n ∧ (w.node m).armed = true := fun m => by
    rw [hshow.armed_iff, waits_disarm h.timely.nodup, h.shows.armed_iff]
  refine ⟨hshow, h.timely.disarm n, fun m hm => h.pool m ((harmed m).mp hm).2, ?_⟩
  have hset : (twDisarm w n).waiting nslots = (w.waiting nslots).erase n := by
    ext m
    rw [mem_waiting, Finset.mem_erase, mem_waiting, harmed]
    tauto
  by_cases ha : (w.node n).armed = true
  · have hmem : n ∈ w.waiting nslots := mem_waiting.mpr ⟨h.pool n ha, ha⟩
    have hpos := Finset.card_pos.mpr ⟨n, hmem⟩
    have hle := card_waiting_le nslots w
    have hlt := nslots.toNat_lt
    rw [hset, Finset.card_erase_of_mem hmem, (twDisarm_fields ha).2.2, h.count]
    omega
  · have hmem : n ∉ w.waiting nslots := fun hn => ha (mem_waiting.mp hn).2
    rw [hset, Finset.erase_eq_of_notMem hmem, show twDisarm w n = w from if_neg ha, h.count]

theorem arm (h : TwSound nslots w v) {n now after : Nat} (hn : n < nslots.toNat) (hnow : now < 2 ^ 64)
    (hafter : after < 2 ^ 32) : TwSound nslots (twArm w n now after) (v.arm n now after) := by
  have hshow := h.shows.arm n now after
  have hd := h.disarm n
  have harmed : ∀ m, ((twArm w n now after).node m).armed = true ↔ m = n ∨ ((twDisarm w n).node m).armed = true :=
    fun m => by
    rw [hshow.armed_iff, waits_arm h.timely.nodup, hd.shows.armed_iff, waits_disarm h.timely.nodup]
    tauto
  have hcount : (twArm w n now after).armed = ((twDisarm w n).armed + 1) % 2 ^ 32 := by
    rw [twArm_disarm, twArm_eq_put (twDisarm_armed w n)]
    · rfl
    · rw [hd.shows.head]
      exact fun e => hd.shows.not_mem (twDisarm_armed w n) _ (List.mem_of_head? e)
  refine ⟨hshow, h.timely.arm hnow hafter, fun m hm => ?_, ?_⟩
  · obtain rfl | hm := (harmed m).mp hm
    · exact hn
    · exact hd.pool m hm
  · have hset : (twArm w n now after).waiting nslots = insert n ((twDisarm w n).waiting nslots) := by
      ext m
      rw [mem_waiting, Finset.mem_insert, mem_waiting, harmed]
      refine ⟨fun ⟨hm, ho⟩ => ho.imp_right fun ho => ⟨hm, ho⟩, ?_⟩
      rintro (rfl | ⟨hm, ho⟩)
      · exact ⟨hn, .inl rfl⟩
      · exact ⟨hm, .inr ho⟩
    have hnot : n ∉ (twDisarm w n).waiting nslots := by
      rw [mem_waiting, twDisarm_armed]
      simp
    have hle := card_waiting_le nslots (twArm w n now after)
    have hlt := nslots.toNat_lt
    rw [hset, Finset.card_insert_of_notMem hnot] at hle
    rw [hset, Finset.card_insert_of_notMem hnot, hcount, hd.count]
    omega

theorem enter (h : TwSound nslots w v) {now : Nat} (hnow : now < 2 ^ 64) :
    TwSound nslots (twEnter w now) (v.enter now) := by
  refine ⟨h.shows.enter now, h.timely.enter hnow, ?_, ?_⟩
  · rw [twEnter_eq]
    exact h.pool
  · rw [twEnter_eq]
    exact h.count

/-- A round on the links and a round on the lists go the same way. -/
theorem round (h : TwSound nslots w v) :
    (∃ w' v', twRound (v.now / twTickMs) w = .again w' ∧ v.round (v.now / twTickMs) = .again v' ∧
      v'.now = v.now ∧ TwSound nslots w' v') ∨
    (∃ w' v' ret, twRound (v.now / twTickMs) w = .done w' ret ∧ v.round (v.now / twTickMs) = .done v' ret ∧
      TwSound nslots w' v') := by
  unfold twRound TwView.round
  rw [h.shows.cursor, h.shows.head]
  cases hl : v.list (v.cursor % twSlots) with
  | nil =>
    simp only [List.head?_nil]
    by_cases hc : v.now / twTickMs ≤ v.cursor
    · rw [if_pos hc, if_pos hc]
      exact .inr ⟨_, _, _, rfl, rfl, h⟩
    · rw [if_neg hc, if_neg hc]
      refine .inl ⟨_, _, rfl, rfl, rfl, ?_, h.timely.advance hl (Nat.not_le.mp hc), h.pool, h.count⟩
      exact ⟨h.shows.head, h.shows.linked, h.shows.nodup, h.shows.mem, h.shows.deadline, h.shows.now, rfl⟩
  | cons n rest =>
    have hd := h.disarm n
    have hnow : (twDisarm w n).now = v.now := hd.shows.now
    have hdead : ((twDisarm w n).node n).deadline = v.deadline n := hd.shows.deadline n
    have hpool := h.pool n (h.shows.armed_iff.mpr ⟨_, hl ▸ List.mem_cons_self⟩)
    simp only [List.head?_cons, hnow, hdead]
    by_cases hc : v.now < v.deadline n
    · rw [if_pos hc, if_pos hc]
      refine .inl ⟨_, _, rfl, rfl, max_self _, hd.arm hpool h.timely.clock (Nat.mod_lt _ (by decide))⟩
    · rw [if_neg hc, if_neg hc]
      exact .inr ⟨_, _, _, rfl, rfl, hd⟩

theorem sweep (h : TwSound nslots w v) (fuel : Nat) :
    (twSweep (v.now / twTickMs) fuel w = none ∧ v.sweep (v.now / twTickMs) fuel = none) ∨
    (∃ w' v' ret, twSweep (v.now / twTickMs) fuel w = some (w', ret) ∧
      v.sweep (v.now / twTickMs) fuel = some (v', ret) ∧ TwSound nslots w' v') := by
  induction fuel generalizing w v with
  | zero => exact .inl ⟨rfl, rfl⟩
  | succ fuel ih =>
    unfold twSweep TwView.sweep
    obtain ⟨w', v', hw, hv, hnow, h'⟩ | ⟨w', v', ret, hw, hv, h'⟩ := h.round
    · rw [hw, hv]
      have := ih h'
      rw [hnow] at this
      exact this
    · rw [hw, hv]
      exact .inr ⟨w', v', ret, rfl, rfl, h'⟩

/-- An expiry on the links and a sweep of the lists end alike. -/
theorem expire (h : TwSound nslots w v) {now : Nat} (hnow : now < 2 ^ 64) (fuel : Nat) :
    (twExpire fuel w now = none ∧ (v.enter now).sweep (max v.now now / twTickMs) fuel = none) ∨
    (∃ w' v' ret, twExpire fuel w now = some (w', ret) ∧
      (v.enter now).sweep (max v.now now / twTickMs) fuel = some (v', ret) ∧ TwSound nslots w' v') := by
  have he := h.enter hnow
  unfold twExpire
  rw [he.shows.now]
  exact he.sweep fuel

end TwSound

/-- The highest clock that a run has seen. -/
def twHighest (start : Nat) (acts : List TwAct) : Nat :=
  acts.foldl (fun m a => match a with
    | .arm _ now _ => max m now
    | .disarm _ => m
    | .expire now _ _ => max m now) start

def TwAct.Touches (n : Nat) : TwAct → Prop
  | .arm m _ _ => m = n
  | .disarm m => m = n
  | .expire _ _ ret => ret = some n

/-- The last call that arms, disarms or returns `n` arms it. -/
def TwStanding (acts : List TwAct) (n : Nat) : Prop :=
  ∃ before now after later, acts = before ++ TwAct.arm n now after :: later ∧ ∀ a ∈ later, ¬ a.Touches n

theorem TwStanding.snoc {acts : List TwAct} {n : Nat} {a : TwAct} (h : TwStanding acts n) (ha : ¬ a.Touches n) :
    TwStanding (acts ++ [a]) n := by
  obtain ⟨before, now, after, later, rfl, hlater⟩ := h
  refine ⟨before, now, after, later ++ [a], by simp, fun x hx => ?_⟩
  obtain hx | hx := List.mem_append.mp hx
  · exact hlater x hx
  · rw [List.mem_singleton.mp hx]
    exact ha

/-- What a call does to the lists. -/
def TwView.Moves (v : TwView) : TwAct → TwView → Prop
  | .arm n now after, v' => v' = v.arm n now after
  | .disarm n, v' => v' = v.disarm n
  | .expire now _ ret, v' => Swept (v.enter now) v' ret

theorem TwSound.step {nslots : UInt32} {w w' : TimeWheel} {v : TwView} {a : TwAct} (h : TwSound nslots w v)
    (hg : TwGuard nslots w a) (hs : twStep w a = some w') : ∃ v', TwSound nslots w' v' ∧ v.Moves a v' := by
  cases a with
  | arm n now after =>
    obtain rfl := Option.some.inj hs
    obtain ⟨hn, hnow, hafter⟩ := hg
    exact ⟨_, h.arm hn hnow hafter, rfl⟩
  | disarm n =>
    obtain rfl := Option.some.inj hs
    exact ⟨_, h.disarm n, rfl⟩
  | expire now fuel ret =>
    unfold twStep at hs
    dsimp only at hs
    obtain ⟨hw, _⟩ | ⟨w₁, v', r, hw, hv, h'⟩ := h.expire hg fuel
    · rw [hw] at hs
      cases hs
    · rw [hw] at hs
      dsimp only at hs
      split at hs
      next hr =>
        obtain rfl := Option.some.inj hs
        subst hr
        exact ⟨v', h', (h.timely.enter hg).sweep hv⟩
      next => cases hs

theorem TwView.Moves.now {v v' : TwView} {a : TwAct} {start : Nat} {acts : List TwAct} (h : v.Moves a v')
    (hnow : v.now = twHighest start acts) : v'.now = twHighest start (acts ++ [a]) := by
  unfold twHighest at hnow ⊢
  rw [List.foldl_append, ← hnow]
  cases a with
  | arm n now after => exact congrArg TwView.now h
  | disarm n =>
    obtain rfl : v' = v.disarm n := h
    rfl
  | expire now fuel ret => exact Swept.now h

theorem TwView.Moves.standing {v v' : TwView} {a : TwAct} {acts : List TwAct} (hv : v.Timely) (h : v.Moves a v')
    (hold : ∀ n, v.Waits n → TwStanding acts n) {n : Nat} (hn : v'.Waits n) : TwStanding (acts ++ [a]) n := by
  cases a with
  | arm m now after =>
    by_cases hm : n = m
    · subst hm
      exact ⟨acts, now, after, [], rfl, by simp⟩
    · obtain rfl : v' = v.arm m now after := h
      exact (hold n (((waits_arm hv.nodup).mp hn).resolve_left hm)).snoc fun e => hm e.symm
  | disarm m =>
    obtain rfl : v' = v.disarm m := h
    obtain ⟨hm, hw⟩ := (waits_disarm hv.nodup).mp hn
    exact (hold n hw).snoc fun e => hm e.symm
  | expire now fuel ret =>
    obtain ⟨hw, hret⟩ := (Swept.waits h n).mp hn
    exact (hold n hw).snoc hret

/-- What a run has made of the wheel. -/
theorem TwRun.sound {nslots : UInt32} {start : Nat} {acts : List TwAct} {w : TimeWheel} (hstart : start < 2 ^ 64)
    (h : TwRun nslots start acts w) :
    ∃ v, TwSound nslots w v ∧ v.now = twHighest start acts ∧ ∀ n, v.Waits n → TwStanding acts n := by
  induction h with
  | nil =>
    refine ⟨_, TwSound.init hstart, rfl, fun n hn => ?_⟩
    obtain ⟨_, hn⟩ := hn
    cases hn
  | snoc _ hg hs ih =>
    obtain ⟨v, hv, hnow, hstand⟩ := ih
    obtain ⟨v', hv', hm⟩ := hv.step hg hs
    exact ⟨v', hv', hm.now hnow, fun n hn => hm.standing hv.timely hstand hn⟩

theorem TwReachable.sound {nslots : UInt32} {start : Nat} {w : TimeWheel} (hstart : start < 2 ^ 64)
    (h : TwReachable nslots start w) : ∃ v, TwSound nslots w v := by
  obtain ⟨acts, hrun⟩ := h
  obtain ⟨v, hv, _⟩ := TwRun.sound hstart hrun
  exact ⟨v, hv⟩

/-- Read along the links, the slots of a sound wheel are its lists. -/
theorem TwSound.list_eq {nslots : UInt32} {w : TimeWheel} {v : TwView} (h : TwSound nslots w v) (s : Nat) :
    w.list s = v.list s := by
  unfold TimeWheel.list
  rw [h.shows.head]
  refine Dll.walk_eq (h.shows.linked s) ?_
  rw [h.count, ← List.toFinset_card_of_nodup (h.shows.nodup s)]
  refine Finset.card_le_card fun n hn => ?_
  obtain ⟨ha, _⟩ := (h.shows.mem s n).mp (List.mem_toFinset.mp hn)
  exact mem_waiting.mpr ⟨h.pool n ha, ha⟩

/-- The counter counts the armed nodes, and each stands once, in the list of its own slot. -/
structure TwConserved (nslots : UInt32) (w : TimeWheel) : Prop where
  pool : ∀ n, (w.node n).armed = true → n < nslots.toNat
  count : w.armed = (w.waiting nslots).card
  slot : ∀ n, (w.node n).armed = true → (w.node n).slot < twSlots
  mem : ∀ s n, n ∈ w.list s ↔ (w.node n).armed = true ∧ (w.node n).slot = s
  nodup : ∀ s, (w.list s).Nodup
  head : ∀ s, w.slot s = (w.list s).head?
  linked : ∀ s, Dll.Linked (fun n => (w.node n).prev) (fun n => (w.node n).next) none (w.list s)

theorem TwSound.conserved {nslots : UInt32} {w : TimeWheel} {v : TwView} (h : TwSound nslots w v) :
    TwConserved nslots w := by
  refine ⟨h.pool, h.count, fun n ha => ?_, fun s n => ?_, fun s => ?_, fun s => ?_, fun s => ?_⟩
  · obtain ⟨e, he, _⟩ := h.timely.placed _ n ((h.shows.mem _ n).mpr ⟨ha, rfl⟩)
    rw [← he]
    exact Nat.mod_lt _ (by decide)
  · rw [h.list_eq]
    exact h.shows.mem s n
  · rw [h.list_eq]
    exact h.shows.nodup s
  · rw [h.list_eq]
    exact h.shows.head s
  · rw [h.list_eq]
    exact h.shows.linked s

/-- In every run the wheel conserves its nodes, returns a node only when it is due and once for an arming,
and is behind on no tick when it returns nothing. -/
theorem wheel_punctual {nslots : UInt32} {start : Nat} {acts : List TwAct} {w : TimeWheel} (hstart : start < 2 ^ 64)
    (h : TwRun nslots start acts w) :
    TwConserved nslots w ∧ w.now = twHighest start acts ∧
    ∀ now fuel w' ret, now < 2 ^ 64 → twExpire fuel w now = some (w', ret) →
      (∀ n, ret = some n → (w.node n).armed = true ∧ (w'.node n).armed = false ∧
        (w.node n).deadline ≤ max (twHighest start acts) now ∧ TwStanding acts n) ∧
      (ret = none → ∀ n, (w'.node n).armed = true →
        max (twHighest start acts) now / twTickMs < ((w'.node n).deadline + 7) / twTickMs) := by
  obtain ⟨v, hv, hnow, hstand⟩ := TwRun.sound hstart h
  refine ⟨hv.conserved, hv.shows.now.trans hnow, fun now fuel w' ret hlt hexp => ?_⟩
  obtain ⟨hw, _⟩ | ⟨w₁, v', r, hw, hsweep, hv'⟩ := hv.expire hlt fuel
  · rw [hw] at hexp
    cases hexp
  · rw [hw] at hexp
    obtain ⟨rfl, rfl⟩ := Prod.mk.inj (Option.some.inj hexp)
    have hswept := (hv.timely.enter hlt).sweep hsweep
    rw [← hnow]
    refine ⟨fun n hn => ?_, fun hn n ha => ?_⟩
    · obtain ⟨hwaits, hdue⟩ := hswept.due n hn
      refine ⟨hv.shows.armed_iff.mpr hwaits, ?_, ?_, hstand n hwaits⟩
      · rw [Bool.eq_false_iff, ne_eq, hv'.shows.armed_iff, hswept.waits]
        exact fun hc => hc.2 hn
      · rw [hv.shows.deadline]
        exact hdue
    · rw [hv'.shows.deadline, hswept.deadline]
      exact hswept.caughtUp hn n (hv'.shows.armed_iff.mp ha)

/-- Three nodes in slots of their own; one is put off, and one is armed again after it was returned. -/
def crowdActs : List TwAct :=
  [.arm 0 0 5, .arm 1 0 40, .arm 2 3 300, .arm 1 4 12, .expire 8 40 (some 0), .arm 0 8 90, .disarm 2, .arm 2 9 20]

def crowd : TimeWheel :=
  (crowdActs.foldlM twStep (twInit 0)).getD (twInit 0)

theorem crowd_run : TwRun 3 0 crowdActs crowd := by
  have hguard : ∀ a ∈ crowdActs, ∀ w, TwGuard 3 w a := by
    unfold crowdActs TwGuard
    simp
  exact Transition.Run.nil.actions hguard rfl

theorem wheel_punctual_sample : ∃ w', twExpire 40 crowd 24 = some (w', some 1) ∧ (crowd.node 1).armed = true ∧
    (w'.node 1).armed = false ∧ (crowd.node 1).deadline ≤ 24 ∧ TwStanding crowdActs 1 := by
  have hexp : twExpire 40 crowd 24 = some (((twExpire 40 crowd 24).get rfl).1, some 1) := rfl
  obtain ⟨hlive, hgone, hdue, hstand⟩ := ((wheel_punctual (by decide) crowd_run).2.2 24 40 _ _ (by decide) hexp).1 1 rfl
  exact ⟨_, hexp, hlive, hgone, hdue, hstand⟩

end Qanat
