import Qanat.TimeWheel

namespace Qanat

/-- The wheel as the lists of waiting nodes, without the links. -/
structure TwView where
  list : Nat → List Nat
  deadline : Nat → Nat
  now : Nat
  cursor : Nat

def TwView.disarm (v : TwView) (n : Nat) : TwView :=
  { v with list := fun s => (v.list s).erase n }

def TwView.arm (v : TwView) (n now after : Nat) : TwView :=
  { v with
    list := fun s => if s = twTick (max v.now now) after % twSlots then n :: (v.list s).erase n
      else (v.list s).erase n
    deadline := Function.update v.deadline n (twDeadline (max v.now now) after)
    now := max v.now now }

/-- What a round of the sweep comes to. -/
inductive TwTurn
  | again (v : TwView)
  | done (v : TwView) (ret : Option Nat)

def TwView.round (nowTick : Nat) (v : TwView) : TwTurn :=
  match v.list (v.cursor % twSlots) with
  | n :: _ =>
    if v.now < v.deadline n then .again ((v.disarm n).arm n v.now ((v.deadline n - v.now) % 2 ^ 32))
    else .done (v.disarm n) (some n)
  | [] => if nowTick ≤ v.cursor then .done v none else .again { v with cursor := v.cursor + 1 }

def TwView.sweep (nowTick : Nat) : Nat → TwView → Option (TwView × Option Nat)
  | 0, _ => none
  | fuel + 1, v =>
    match v.round nowTick with
    | .again v' => TwView.sweep nowTick fuel v'
    | .done v' ret => some (v', ret)

def TwView.enter (v : TwView) (now : Nat) : TwView :=
  { v with
    now := max v.now now
    cursor := if v.cursor + twSlots ≤ max v.now now / twTickMs then max v.now now / twTickMs - (twSlots - 1)
      else v.cursor }

/-- The slots of a wheel are linked lists of its armed nodes. -/
structure Shows (w : TimeWheel) (v : TwView) : Prop where
  head : ∀ s, w.slot s = (v.list s).head?
  linked : ∀ s, Dll.Linked (fun n => (w.node n).prev) (fun n => (w.node n).next) none (v.list s)
  nodup : ∀ s, (v.list s).Nodup
  mem : ∀ s n, n ∈ v.list s ↔ (w.node n).armed = true ∧ (w.node n).slot = s
  deadline : ∀ n, (w.node n).deadline = v.deadline n
  now : w.now = v.now
  cursor : w.cursor = v.cursor

section Links

variable {w : TimeWheel} {n : Nat}

/-- Disarming redirects the links of the two neighbours and clears the node. -/
theorem twDisarm_node (ha : (w.node n).armed = true) (hp : (w.node n).prev ≠ some n) (hq : (w.node n).next ≠ some n)
    (y : Nat) : (twDisarm w n).node y =
      if y = n then { w.node n with prev := none, next := none, armed := false }
      else { w.node y with
        prev := if (w.node n).next = some y then (w.node n).prev else (w.node y).prev
        next := if (w.node n).prev = some y then (w.node n).next else (w.node y).next } := by
  unfold twDisarm
  rw [if_pos ha]
  cases hprev : (w.node n).prev with
  | none =>
    cases hnext : (w.node n).next with
    | none =>
      by_cases hy : y = n
      · simp [hy, TimeWheel.setSlot, hnext]
      · simp [hy, TimeWheel.setSlot, hnext]
    | some q =>
      have hqn : q ≠ n := fun e => hq (hnext.trans (congrArg some e))
      by_cases hy : y = n
      · simp [hy, TimeWheel.setSlot, TimeWheel.setPrev, hnext, hqn.symm]
      · by_cases hyq : y = q
        · simp [TimeWheel.setSlot, TimeWheel.setPrev, hnext, hyq, hqn, hprev]
        · simp [hy, TimeWheel.setSlot, TimeWheel.setPrev, hnext, hyq, Ne.symm hyq]
  | some p =>
    have hpn : p ≠ n := fun e => hp (hprev.trans (congrArg some e))
    cases hnext : (w.node n).next with
    | none =>
      by_cases hy : y = n
      · simp [hy, TimeWheel.setNext, hnext, hpn.symm]
      · by_cases hyp : y = p
        · simp [TimeWheel.setNext, hnext, hpn.symm, hyp, hpn]
        · simp [hy, TimeWheel.setNext, hnext, hpn.symm, hyp, Ne.symm hyp]
    | some q =>
      have hqn : q ≠ n := fun e => hq (hnext.trans (congrArg some e))
      by_cases hy : y = n
      · simp [hy, TimeWheel.setNext, TimeWheel.setPrev, hnext, hpn.symm, hqn.symm]
      · by_cases hyp : y = p
        · by_cases hyq : y = q
          · subst hyp
            subst hyq
            simp [TimeWheel.setNext, TimeWheel.setPrev, hnext, hprev, hpn.symm, hpn]
          · subst hyp
            simp [TimeWheel.setNext, TimeWheel.setPrev, hnext, hprev, hpn.symm, hpn, hyq, Ne.symm hyq]
        · by_cases hyq : y = q
          · subst hyq
            simp [TimeWheel.setNext, TimeWheel.setPrev, hnext, hprev, hpn.symm, hqn, hyp, Ne.symm hyp]
          · simp [hy, TimeWheel.setNext, TimeWheel.setPrev, hnext, hpn.symm, hyp, hyq, Ne.symm hyp,
              Ne.symm hyq]

theorem twDisarm_slot (ha : (w.node n).armed = true) (s : Nat) : (twDisarm w n).slot s =
    if (w.node n).prev = none ∧ s = (w.node n).slot then (w.node n).next else w.slot s := by
  unfold twDisarm
  rw [if_pos ha]
  cases hprev : (w.node n).prev with
  | none =>
    by_cases hs : s = (w.node n).slot
    · simp only [TimeWheel.setSlot]
      split <;> simp [TimeWheel.setPrev, hs]
    · simp only [TimeWheel.setSlot]
      split <;> simp [TimeWheel.setPrev, hs]
  | some p =>
    simp only [TimeWheel.setNext]
    split <;> simp [TimeWheel.setPrev]

theorem twDisarm_fields (ha : (w.node n).armed = true) : (twDisarm w n).now = w.now ∧
    (twDisarm w n).cursor = w.cursor ∧ (twDisarm w n).armed = (w.armed + (2 ^ 32 - 1)) % 2 ^ 32 := by
  unfold twDisarm
  rw [if_pos ha]
  cases hprev : (w.node n).prev with
  | none =>
    simp only [TimeWheel.setSlot]
    split <;> simp [TimeWheel.setPrev]
  | some p =>
    simp only [TimeWheel.setNext]
    split <;> simp [TimeWheel.setPrev]

theorem twDisarm_armed (w : TimeWheel) (n : Nat) : ((twDisarm w n).node n).armed = false := by
  unfold twDisarm
  split
  next => simp
  next h => simpa using h

theorem twArm_disarm (w : TimeWheel) (n now after : Nat) : twArm w n now after = twArm (twDisarm w n) n now after := by
  unfold twArm
  rw [twDisarm_armed, if_neg Bool.false_ne_true]
  by_cases ha : (w.node n).armed = true
  · rw [if_pos ha]
  · rw [if_neg ha, show twDisarm w n = w from if_neg ha]

theorem twClock_eq (w : TimeWheel) (now : Nat) :
    (if w.now < now then { w with now := now } else w) = { w with now := max w.now now } := by
  split
  next h => rw [max_eq_right h.le]
  next h => rw [max_eq_left (Nat.not_lt.mp h)]

theorem twEnter_eq (w : TimeWheel) (now : Nat) : twEnter w now =
    { w with
      now := max w.now now
      cursor := if w.cursor + twSlots ≤ max w.now now / twTickMs then max w.now now / twTickMs - (twSlots - 1)
        else w.cursor } := by
  unfold twEnter
  rw [twClock_eq]
  dsimp only
  split
  next => rfl
  next => rfl

/-- The wheel once a node that does not wait is put in front of a slot. -/
def TimeWheel.put (w : TimeWheel) (n now slot deadline : Nat) : TimeWheel :=
  { w with
    slot := Function.update w.slot slot (some n)
    node := fun y => if y = n then { prev := none, next := w.slot slot, deadline := deadline, slot := slot, armed := true }
      else { w.node y with prev := if w.slot slot = some y then some n else (w.node y).prev }
    now := now
    armed := (w.armed + 1) % 2 ^ 32 }

theorem twArm_eq_put (ha : (w.node n).armed = false) {now after : Nat}
    (hn : w.slot (twTick (max w.now now) after % twSlots) ≠ some n) : twArm w n now after =
      w.put n (max w.now now) (twTick (max w.now now) after % twSlots) (twDeadline (max w.now now) after) := by
  unfold twArm TimeWheel.put
  simp only [ha, Bool.false_eq_true, if_false, twClock_eq, Function.update_self]
  cases hq : w.slot (twTick (max w.now now) after % twSlots) with
  | none =>
    simp only [TimeWheel.setSlot, TimeWheel.mk.injEq, true_and, and_true]
    funext y
    by_cases hy : y = n
    · simp [hy]
    · simp [hy]
  | some q =>
    have hqn : q ≠ n := fun e => hn (hq.trans (congrArg some e))
    simp only [TimeWheel.setSlot, TimeWheel.setPrev, TimeWheel.mk.injEq, true_and, and_true]
    funext y
    by_cases hy : y = n
    · simp [hy, hqn.symm]
    · by_cases hyq : y = q
      · simp [hyq, hqn]
      · simp [hy, hyq, Ne.symm hyq]

end Links

namespace Shows

variable {w : TimeWheel} {v : TwView} {n : Nat}

theorem not_mem (h : Shows w v) (ha : (w.node n).armed = false) (s : Nat) : n ∉ v.list s := by
  intro hn
  rw [((h.mem s n).mp hn).1] at ha
  exact absurd ha (by decide)

theorem prev_mem (h : Shows w v) {s x y : Nat} (hx : x ∈ v.list s) (hy : (w.node x).prev = some y) : y ∈ v.list s :=
  ((h.linked s).prev_mem hx hy).resolve_left (by simp)

theorem slot_eq (h : Shows w v) {s t x : Nat} (hs : x ∈ v.list s) (ht : x ∈ v.list t) : s = t :=
  ((h.mem s x).mp hs).2.symm.trans ((h.mem t x).mp ht).2

theorem disarm (h : Shows w v) (n : Nat) : Shows (twDisarm w n) (v.disarm n) := by
  by_cases ha : (w.node n).armed = true
  · have hn := (h.mem _ n).mpr ⟨ha, rfl⟩
    have hnode := twDisarm_node ha ((h.linked _).prev_ne (h.nodup _) (by simp) hn) ((h.linked _).next_ne (h.nodup _) hn)
    have hslot := twDisarm_slot ha
    obtain ⟨hnow, hcursor, _⟩ := twDisarm_fields ha
    have hother : ∀ s, s ≠ (w.node n).slot → n ∉ v.list s := fun s hs hmem => hs (h.slot_eq hmem hn)
    refine ⟨fun s => ?_, fun s => ?_, fun s => (h.nodup s).erase n, fun s y => ?_, fun y => ?_, hnow.trans h.now,
      hcursor.trans h.cursor⟩
    · change _ = ((v.list s).erase n).head?
      by_cases hs : s = (w.node n).slot
      · subst hs
        rw [hslot, Dll.head?_erase (h.linked _) hn, h.head]
        simp
      · rw [hslot, if_neg (fun e => hs e.2), List.erase_of_not_mem (hother s hs), h.head]
    · change Dll.Linked _ _ none ((v.list s).erase n)
      by_cases hs : s = (w.node n).slot
      · subst hs
        refine (h.linked _).unlink (h.nodup _) (by simp) hn (fun y hy => ?_) fun y hy => ?_
        · have hyn := ((h.nodup _).mem_erase_iff.mp hy).1
          rw [hnode, if_neg hyn]
        · have hyn := ((h.nodup _).mem_erase_iff.mp hy).1
          rw [hnode, if_neg hyn]
      · rw [List.erase_of_not_mem (hother s hs)]
        have hne : ∀ y ∈ v.list s, y ≠ n := fun y hy e => hother s hs (e ▸ hy)
        refine (h.linked s).congr (fun y hy => ?_) fun y hy => ?_
        · rw [hnode, if_neg (hne y hy)]
          exact if_neg fun e => hs (h.slot_eq hy ((h.linked _).next_mem hn e))
        · rw [hnode, if_neg (hne y hy)]
          exact if_neg fun e => hs (h.slot_eq hy (h.prev_mem hn e))
    · change y ∈ (v.list s).erase n ↔ _
      rw [(h.nodup s).mem_erase_iff, h.mem, hnode]
      by_cases hy : y = n
      · simp [hy]
      · simp [hy]
    · change _ = v.deadline y
      rw [hnode, ← h.deadline]
      by_cases hy : y = n
      · simp [hy]
      · simp [hy]
  · have hw : twDisarm w n = w := if_neg ha
    have hv : v.disarm n = v := by
      unfold TwView.disarm
      congr 1
      funext s
      exact List.erase_of_not_mem (h.not_mem (Bool.eq_false_iff.mpr ha) s)
    rw [hw, hv]
    exact h

theorem put (h : Shows w v) (ha : (w.node n).armed = false) (now s deadline : Nat) :
    Shows (w.put n now s deadline)
      { v with
        list := fun t => if t = s then n :: v.list t else v.list t
        deadline := Function.update v.deadline n deadline
        now := now } := by
  have hnot := h.not_mem ha
  have hnode : ∀ y, y ≠ n → (w.put n now s deadline).node y =
      { w.node y with prev := if w.slot s = some y then some n else (w.node y).prev } := fun y hy => if_neg hy
  have hne : ∀ t, ∀ y ∈ v.list t, y ≠ n := fun t y hy e => hnot t (e ▸ hy)
  refine ⟨fun t => ?_, fun t => ?_, fun t => ?_, fun t y => ?_, fun y => ?_, rfl, h.cursor⟩
  · change Function.update w.slot s (some n) t = (if t = s then n :: v.list t else v.list t).head?
    by_cases ht : t = s
    · simp [ht]
    · simp [ht, h.head]
  · change Dll.Linked _ _ none (if t = s then n :: v.list t else v.list t)
    by_cases ht : t = s
    · subst ht
      rw [if_pos rfl]
      refine (h.linked t).push (h.nodup t) (by simp [TimeWheel.put]) (by simp [TimeWheel.put, h.head])
        (fun y hy => ?_) fun y hy => ?_
      · rw [hnode y (hne t y hy), h.head]
      · rw [hnode y (hne t y hy)]
    · rw [if_neg ht]
      refine (h.linked t).congr (fun y hy => ?_) fun y hy => ?_
      · rw [hnode y (hne t y hy)]
        refine if_neg fun e => ht (h.slot_eq hy (List.mem_of_head? ?_))
        rw [← h.head, e]
      · rw [hnode y (hne t y hy)]
  · change (if t = s then n :: v.list t else v.list t).Nodup
    split
    next => exact List.nodup_cons.mpr ⟨hnot t, h.nodup t⟩
    next => exact h.nodup t
  · change y ∈ (if t = s then n :: v.list t else v.list t) ↔ _
    by_cases hy : y = n
    · subst hy
      by_cases ht : t = s
      · simp [ht, TimeWheel.put]
      · simp [ht, TimeWheel.put, hnot t, Ne.symm ht]
    · rw [hnode y hy]
      by_cases ht : t = s
      · simp [ht, hy, h.mem]
      · simp [ht, h.mem]
  · change _ = Function.update v.deadline n deadline y
    by_cases hy : y = n
    · simp [hy, TimeWheel.put]
    · rw [hnode y hy, Function.update_of_ne hy]
      exact h.deadline y

theorem arm (h : Shows w v) (n now after : Nat) : Shows (twArm w n now after) (v.arm n now after) := by
  have hd := h.disarm n
  have ha := twDisarm_armed w n
  have hput := hd.put ha (max v.now now) (twTick (max v.now now) after % twSlots) (twDeadline (max v.now now) after)
  rw [twArm_disarm, twArm_eq_put ha, hd.now]
  · exact hput
  · rw [hd.head]
    exact fun e => hd.not_mem ha _ (List.mem_of_head? e)

theorem enter (h : Shows w v) (now : Nat) : Shows (twEnter w now) (v.enter now) := by
  rw [twEnter_eq]
  refine ⟨h.head, h.linked, h.nodup, h.mem, h.deadline, ?_, ?_⟩
  · change max w.now now = max v.now now
    rw [h.now]
  · change (if w.cursor + twSlots ≤ max w.now now / twTickMs then _ else w.cursor) = _
    rw [h.now, h.cursor]
    rfl

end Shows

end Qanat
