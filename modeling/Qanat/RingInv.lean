import Qanat.Ring

namespace Qanat

section Words

/-- Positions that lie less than `2^32` apart are told apart by their 32-bit indices. -/
theorem ofNat_sub_toNat {t p : Nat} (hle : p ≤ t) (hlt : t - p < 2 ^ 32) :
    (UInt32.ofNat t - UInt32.ofNat p).toNat = t - p := by
  rw [← UInt32.ofNat_sub hle]
  exact UInt32.toNat_ofNat_of_lt' hlt

theorem ofNat_eq_iff {t p : Nat} (hle : p ≤ t) (hlt : t - p < 2 ^ 32) :
    UInt32.ofNat p = UInt32.ofNat t ↔ p = t := by
  constructor
  · intro h
    have := ofNat_sub_toNat hle hlt
    rw [h, UInt32.sub_self] at this
    have : 0 = t - p := this
    omega
  · rintro rfl
    rfl

theorem cell_toNat {k : Nat} (hk : k ≤ 32) (mask : UInt32) (hmask : mask.toNat = 2 ^ k - 1) (t : Nat) :
    (UInt32.ofNat t &&& mask).toNat = t % 2 ^ k := by
  rw [UInt32.toNat_and, hmask, Nat.and_two_pow_sub_one_eq_mod, UInt32.toNat_ofNat']
  exact Nat.mod_mod_of_dvd t (Nat.pow_dvd_pow 2 hk)

end Words

/-- Two positions in a window of `cap` have different cells. -/
theorem mod_ne_of_close {cap i j : Nat} (hij : i < j) (hclose : j - i < cap) : i % cap ≠ j % cap := by
  intro h
  have hdvd : cap ∣ j - i := Nat.dvd_of_mod_eq_zero (Nat.sub_mod_eq_zero_of_mod_eq h.symm)
  have := Nat.le_of_dvd (by omega) hdvd
  omega

/-- What the producer knows at each point of a push; `T` and `P` are the positions of its tail and of
the head it last saw. -/
def PushOk {α : Type} (cap T P : Nat) (ring : Ring α) : PushPc α → Prop
  | .idle => True
  | .reload _ tail => tail = UInt32.ofNat T
  | .writing _ tail => tail = UInt32.ofNat T ∧ T - P < cap
  | .written item tail => tail = UInt32.ofNat T ∧ T - P < cap ∧ ring.buf (tail &&& ring.mask) = item

/-- What the consumer knows at each point of a pop; `H` and `C` are the positions of its head and of
the tail it last saw. -/
def PopOk {α : Type} (H C : Nat) (pushed : List α) : PopPc α → Prop
  | .idle => True
  | .reload head _ => head = UInt32.ofNat H
  | .copying head n acc => head = UInt32.ofNat H ∧ H + n.toNat ≤ C ∧ acc.length ≤ n.toNat ∧
      acc = (pushed.drop H).take acc.length

/-- The indices as unbounded positions: `P ≤ S ≤ H ≤ C ≤ T` and `T - P ≤ cap`. `heads` are the
positions behind the messages of the consumer, `P` is the cached one and `S` the newest seen. -/
structure RingInv {α : Type} (cap : Nat) (c : RingSys α) (heads : List Nat) (P S : Nat) : Prop where
  pow : ∃ k ≤ 31, cap = 2 ^ k
  mask : c.ring.mask.toNat = cap - 1
  tails_eq : c.tails = (List.range (c.pushed.length + 1)).map UInt32.ofNat
  heads_eq : c.heads = heads.map UInt32.ofNat
  heads_sorted : heads.Pairwise (· ≤ ·)
  heads_last : heads.getLast? = some c.popped.length
  seen : heads[c.headSeen]? = some S
  cached : P ≤ S
  tail : c.ring.tail = UInt32.ofNat c.pushed.length
  head : c.ring.head = UInt32.ofNat c.popped.length
  tailCache : c.ring.tailCache = UInt32.ofNat P
  headCache : c.ring.headCache = UInt32.ofNat c.tailSeen
  lower : c.popped.length ≤ c.tailSeen
  upper : c.tailSeen ≤ c.pushed.length
  room : c.pushed.length ≤ P + cap
  cells : ∀ i, c.popped.length ≤ i → i < c.pushed.length →
    some (c.ring.buf (UInt32.ofNat i &&& c.ring.mask)) = c.pushed[i]?
  popped_eq : c.popped = c.pushed.take c.popped.length
  prod : PushOk cap c.pushed.length P c.ring c.prod
  cons : PopOk c.popped.length c.tailSeen c.pushed c.cons
  refused : ∀ n ∈ c.refused, n = cap
  dropped : c.ring.dropped = c.refused.length

section Facts

variable {α : Type} {cap P S : Nat} {c : RingSys α} {heads : List Nat} (h : RingInv cap c heads P S)
include h

theorem RingInv.cap_pos : 0 < cap := by
  obtain ⟨k, -, rfl⟩ := h.pow
  exact Nat.pow_pos (by decide)

theorem RingInv.cap_le : cap ≤ 2 ^ 31 := by
  obtain ⟨k, hk, rfl⟩ := h.pow
  exact Nat.pow_le_pow_right (by decide) hk

/-- A message the producer may read stands for a position up to the consumer's. -/
theorem RingInv.message_le {j v : Nat} (hj : heads[j]? = some v) : v ≤ c.popped.length := by
  have hlast := h.heads_last
  rw [List.getLast?_eq_getElem?] at hlast
  obtain ⟨hlt, hv⟩ := List.getElem?_eq_some_iff.mp hj
  obtain ⟨hlt', hw⟩ := List.getElem?_eq_some_iff.mp hlast
  rw [← hv, ← hw]
  rcases Nat.lt_or_eq_of_le (show j ≤ heads.length - 1 by omega) with hj | rfl
  · exact List.pairwise_iff_getElem.mp h.heads_sorted j _ hlt hlt' hj
  · exact le_refl _

theorem RingInv.seen_le : S ≤ c.popped.length :=
  h.message_le h.seen

theorem RingInv.later_message {j v : Nat} (hj : heads[j]? = some v) (hle : c.headSeen ≤ j) : S ≤ v := by
  obtain ⟨hlt, hv⟩ := List.getElem?_eq_some_iff.mp hj
  obtain ⟨hlt', hP⟩ := List.getElem?_eq_some_iff.mp h.seen
  rw [← hv, ← hP]
  rcases Nat.lt_or_eq_of_le hle with hj | rfl
  · exact List.pairwise_iff_getElem.mp h.heads_sorted _ _ hlt' hlt hj
  · exact le_refl _

theorem RingInv.cell (i : Nat) : (UInt32.ofNat i &&& c.ring.mask).toNat = i % cap := by
  obtain ⟨k, hk, rfl⟩ := h.pow
  exact cell_toNat (by omega) _ h.mask i

/-- Positions less than a capacity apart have cells of their own. -/
theorem RingInv.cell_ne {i j : Nat} (hij : i < j) (hclose : j - i < cap) :
    UInt32.ofNat i &&& c.ring.mask ≠ UInt32.ofNat j &&& c.ring.mask := by
  intro heq
  have := congrArg UInt32.toNat heq
  rw [h.cell, h.cell] at this
  exact mod_ne_of_close hij hclose this

/-- The test of `qn_ring_push` for a full ring. -/
theorem RingInv.full_iff {v : Nat} (hv : v ≤ c.pushed.length) (hroom : c.pushed.length ≤ v + cap) :
    c.ring.mask < UInt32.ofNat c.pushed.length - UInt32.ofNat v ↔ c.pushed.length = v + cap := by
  have hcap := h.cap_le
  have hpos := h.cap_pos
  rw [UInt32.lt_iff_toNat_lt, h.mask, ofNat_sub_toNat hv (by omega)]
  omega

end Facts

section Producer

variable {α : Type} {cap P S : Nat} {c : RingSys α} {heads : List Nat} (h : RingInv cap c heads P S)
include h

theorem ringInv_len {c' : RingSys α} {j : Nat} (hstep : ringStep c (.len j) = some c') :
    ∃ S', S ≤ S' ∧ RingInv cap c' heads P S' := by
  simp only [ringStep] at hstep
  split at hstep
  next fresh _ hfresh =>
    split at hstep
    next => simp at hstep
    next hle =>
      obtain rfl := Option.some.inj hstep
      rw [h.heads_eq, List.getElem?_map] at hfresh
      obtain ⟨v, hv, rfl⟩ := Option.map_eq_some_iff.mp hfresh
      have hlater := h.later_message hv (by omega)
      exact ⟨v, hlater, { h with seen := hv, cached := le_trans h.cached hlater }⟩
  next => simp at hstep

theorem ringInv_push {c' : RingSys α} {item : α} (hstep : ringStep c (.push item) = some c') :
    RingInv cap c' heads P S := by
  have hseen := h.seen_le
  have hcached := h.cached
  have hlow := h.lower
  have hup := h.upper
  simp only [ringStep] at hstep
  split at hstep
  next =>
    rw [h.tail, h.tailCache] at hstep
    split at hstep
    next =>
      obtain rfl := Option.some.inj hstep
      exact { h with prod := rfl }
    next hroom =>
      obtain rfl := Option.some.inj hstep
      rw [h.full_iff (by omega) h.room] at hroom
      have := h.room
      exact { h with prod := ⟨rfl, by dsimp only; omega⟩ }
  next => simp at hstep

theorem ringInv_loadHead {c' : RingSys α} {j : Nat} (hstep : ringStep c (.loadHead j) = some c') :
    ∃ P', S ≤ P' ∧ RingInv cap c' heads P' P' ∧ c'.pushed = c.pushed ∧
      ∃ item tail, c.prod = .reload item tail ∧
        (c.pushed.length = P' + cap ∨
          (c'.ring.dropped = c.ring.dropped ∧ c'.prod = .writing item tail)) := by
  simp only [ringStep] at hstep
  split at hstep
  next item tail fresh hprod hfresh =>
    split at hstep
    next => simp at hstep
    next hle =>
      rw [h.heads_eq, List.getElem?_map] at hfresh
      obtain ⟨v, hv, rfl⟩ := Option.map_eq_some_iff.mp hfresh
      have hlater := h.later_message hv (by omega)
      have hcached := h.cached
      have hmsg := h.message_le hv
      have hlow := h.lower
      have hup := h.upper
      have hroom := h.room
      have hcap := h.cap_le
      have htail : tail = UInt32.ofNat c.pushed.length := by
        have := h.prod
        rw [hprod] at this
        exact this
      subst htail
      have hfull := h.full_iff (v := v) (by omega) (by omega)
      split at hstep
      next hdrop =>
        obtain rfl := Option.some.inj hstep
        have hall := hfull.mp hdrop
        refine ⟨v, hlater, { h with
          seen := hv
          cached := le_refl v
          tailCache := rfl
          room := (by dsimp only; omega)
          prod := trivial
          refused := ?_
          dropped := ?_ }, rfl, item, _, hprod, Or.inl hall⟩
        · intro n hn
          rcases List.mem_append.mp hn with hn | hn
          · exact h.refused n hn
          · rw [List.mem_singleton.mp hn, ofNat_sub_toNat (by omega) (by omega)]
            omega
        · dsimp only
          rw [h.dropped, List.length_append, List.length_singleton]
      next hspace =>
        obtain rfl := Option.some.inj hstep
        have hnot : ¬c.pushed.length = v + cap := fun hx => hspace (hfull.mpr hx)
        exact ⟨v, hlater, { h with
          seen := hv
          cached := le_refl v
          tailCache := rfl
          room := (by dsimp only; omega)
          prod := ⟨rfl, by dsimp only; omega⟩ }, rfl, item, _, hprod, Or.inr ⟨rfl, rfl⟩⟩
  next => simp at hstep

/-- Writing the cell at the tail leaves every published cell alone. -/
theorem RingInv.cells_setCell (hroom : c.pushed.length - P < cap) (x : α) :
    ∀ i, c.popped.length ≤ i → i < c.pushed.length →
      some ((c.ring.setCell (UInt32.ofNat c.pushed.length &&& c.ring.mask) x).buf
        (UInt32.ofNat i &&& c.ring.mask)) = c.pushed[i]? := by
  intro i hlow hlt
  have hseen := h.seen_le
  have hcached := h.cached
  have hne := h.cell_ne hlt (by omega)
  unfold Ring.setCell
  dsimp only
  rw [if_neg hne]
  exact h.cells i hlow hlt

theorem ringInv_scribble {c' : RingSys α} {x : α} (hstep : ringStep c (.scribble x) = some c') :
    RingInv cap c' heads P S := by
  simp only [ringStep] at hstep
  split at hstep
  next item tail hprod =>
    obtain rfl := Option.some.inj hstep
    have hok := h.prod
    rw [hprod] at hok
    obtain ⟨rfl, hroom⟩ := hok
    exact { h with
      cells := h.cells_setCell hroom x
      prod := (by rw [hprod]; exact ⟨rfl, hroom⟩) }
  next => simp at hstep

theorem ringInv_finishWrite {c' : RingSys α} (hstep : ringStep c .finishWrite = some c') :
    RingInv cap c' heads P S := by
  simp only [ringStep] at hstep
  split at hstep
  next item tail hprod =>
    obtain rfl := Option.some.inj hstep
    have hok := h.prod
    rw [hprod] at hok
    obtain ⟨rfl, hroom⟩ := hok
    exact { h with
      cells := h.cells_setCell hroom item
      prod := ⟨rfl, hroom, if_pos rfl⟩ }
  next => simp at hstep

theorem ringInv_storeTail {c' : RingSys α} (hstep : ringStep c .storeTail = some c') :
    RingInv cap c' heads P S := by
  simp only [ringStep] at hstep
  split at hstep
  next item tail hprod =>
    obtain rfl := Option.some.inj hstep
    have hok := h.prod
    rw [hprod] at hok
    obtain ⟨rfl, hroom, hcell⟩ := hok
    have hlow := h.lower
    have hup := h.upper
    have hlen : (c.pushed ++ [item]).length = c.pushed.length + 1 := by simp
    refine { h with
      tails_eq := ?_
      tail := ?_
      upper := ?_
      room := ?_
      cells := ?_
      popped_eq := ?_
      prod := trivial
      cons := ?_ }
    · dsimp only
      rw [hlen, List.range_succ, List.map_append, h.tails_eq, List.map_singleton, UInt32.ofNat_add]
      rfl
    · dsimp only
      rw [hlen, UInt32.ofNat_add]
      rfl
    · dsimp only
      omega
    · dsimp only
      have := h.room
      omega
    · intro i hi hlt
      dsimp only at hlt ⊢
      rw [hlen] at hlt
      rcases Nat.lt_or_eq_of_le (Nat.le_of_lt_succ hlt) with hold | rfl
      · rw [List.getElem?_append_left hold]
        exact h.cells i hi hold
      · rw [List.getElem?_append_right (le_refl _), Nat.sub_self, hcell]
        rfl
    · dsimp only
      rw [List.take_append_of_le_length (by omega)]
      exact h.popped_eq
    · have hcons := h.cons
      dsimp only
      cases hc : c.cons with
      | idle => trivial
      | reload head max =>
        rw [hc] at hcons
        exact hcons
      | copying head n acc =>
        rw [hc] at hcons
        obtain ⟨hhead, hn, hacc, heq⟩ := hcons
        refine ⟨hhead, hn, hacc, ?_⟩
        rw [List.drop_append_of_le_length (by omega),
          List.take_append_of_le_length (by rw [List.length_drop]; omega)]
        exact heq
  next => simp at hstep

end Producer

theorem popCount_le (headCache head max : UInt32) :
    (popCount headCache head max).toNat ≤ (headCache - head).toNat := by
  unfold popCount
  dsimp only
  split
  next hlt => exact Nat.le_of_lt (UInt32.lt_iff_toNat_lt.mp hlt)
  next => exact le_refl _

section Consumer

variable {α : Type} {cap P S : Nat} {c : RingSys α} {heads : List Nat} (h : RingInv cap c heads P S)
include h

/-- A batch starts at the head and ends no later than the tail last seen. -/
theorem RingInv.batch (max : UInt32) {C : Nat} (hlow : c.popped.length ≤ C) (hup : C ≤ c.pushed.length) :
    PopOk c.popped.length C c.pushed
      (.copying (UInt32.ofNat c.popped.length)
        (popCount (UInt32.ofNat C) (UInt32.ofNat c.popped.length) max) []) := by
  have hroom := h.room
  have hcap := h.cap_le
  have hseen := h.seen_le
  have hcached := h.cached
  have hle := popCount_le (UInt32.ofNat C) (UInt32.ofNat c.popped.length) max
  rw [ofNat_sub_toNat hlow (by omega)] at hle
  exact ⟨rfl, by omega, Nat.zero_le _, by simp⟩

theorem ringInv_pop {c' : RingSys α} {max : UInt32} (hstep : ringStep c (.pop max) = some c') :
    RingInv cap c' heads P S := by
  simp only [ringStep] at hstep
  split at hstep
  next =>
    rw [h.head, h.headCache] at hstep
    split at hstep
    next =>
      obtain rfl := Option.some.inj hstep
      exact { h with cons := rfl }
    next =>
      obtain rfl := Option.some.inj hstep
      exact { h with cons := h.batch max h.lower h.upper }
  next => simp at hstep

theorem ringInv_loadTail {c' : RingSys α} {j : Nat} (hstep : ringStep c (.loadTail j) = some c') :
    RingInv cap c' heads P S := by
  simp only [ringStep] at hstep
  split at hstep
  next head max fresh hcons hfresh =>
    split at hstep
    next => simp at hstep
    next hle =>
      have hlow := h.lower
      rw [h.tails_eq, List.getElem?_map] at hfresh
      obtain ⟨v, hv, rfl⟩ := Option.map_eq_some_iff.mp hfresh
      obtain ⟨hlt, hget⟩ := List.getElem?_eq_some_iff.mp hv
      rw [List.getElem_range] at hget
      rw [List.length_range] at hlt
      subst hget
      have hhead : head = UInt32.ofNat c.popped.length := by
        have := h.cons
        rw [hcons] at this
        exact this
      subst hhead
      have hlow' : c.popped.length ≤ j := by omega
      have hup' : j ≤ c.pushed.length := by omega
      split at hstep
      next =>
        obtain rfl := Option.some.inj hstep
        exact { h with headCache := rfl, lower := hlow', upper := hup', cons := trivial }
      next =>
        obtain rfl := Option.some.inj hstep
        exact { h with headCache := rfl, lower := hlow', upper := hup', cons := h.batch max hlow' hup' }
  next => simp at hstep

theorem ringInv_copy {c' : RingSys α} (hstep : ringStep c .copy = some c') : RingInv cap c' heads P S := by
  simp only [ringStep] at hstep
  split at hstep
  next head n acc hcons =>
    split at hstep
    next hmore =>
      obtain rfl := Option.some.inj hstep
      have hok := h.cons
      rw [hcons] at hok
      obtain ⟨rfl, hn, hacc, heq⟩ := hok
      have hup := h.upper
      have hlen : ∀ x, (acc ++ [x]).length = acc.length + 1 := fun x => by simp
      refine { h with cons := ⟨rfl, hn, by rw [hlen]; omega, ?_⟩ }
      rw [hlen, List.take_add_one, ← heq, ← UInt32.ofNat_add, List.getElem?_drop,
        ← h.cells (c.popped.length + acc.length) (by omega) (by omega)]
      rfl
    next => simp at hstep
  next => simp at hstep

theorem ringInv_storeHead {c' : RingSys α} (hstep : ringStep c .storeHead = some c') :
    ∃ heads', RingInv cap c' heads' P S := by
  simp only [ringStep] at hstep
  split at hstep
  next head n acc hcons =>
    split at hstep
    next => simp at hstep
    next hdone =>
      obtain rfl := Option.some.inj hstep
      have hok := h.cons
      rw [hcons] at hok
      obtain ⟨rfl, hn, hacc, heq⟩ := hok
      have hup := h.upper
      have hlen : (c.popped ++ acc).length = c.popped.length + n.toNat := by
        rw [List.length_append]
        omega
      have hhead : UInt32.ofNat c.popped.length + n = UInt32.ofNat (c.popped.length + n.toNat) := by
        rw [UInt32.ofNat_add, UInt32.ofNat_toNat]
      refine ⟨heads ++ [c.popped.length + n.toNat], { h with
        heads_eq := ?_
        heads_sorted := ?_
        heads_last := ?_
        seen := ?_
        head := ?_
        lower := ?_
        cells := ?_
        popped_eq := ?_
        cons := trivial }⟩
      · dsimp only
        rw [List.map_append, List.map_singleton, h.heads_eq, hhead]
      · refine List.pairwise_append.mpr ⟨h.heads_sorted, List.pairwise_singleton _ _, ?_⟩
        intro x hx y hy
        rw [List.mem_singleton.mp hy]
        obtain ⟨i, hi⟩ := List.mem_iff_getElem?.mp hx
        have := h.message_le hi
        omega
      · dsimp only
        rw [List.getLast?_append, List.getLast?_singleton, hlen]
        rfl
      · obtain ⟨hlt, -⟩ := List.getElem?_eq_some_iff.mp h.seen
        dsimp only
        rw [List.getElem?_append_left hlt]
        exact h.seen
      · dsimp only
        rw [hlen, hhead]
      · dsimp only
        omega
      · intro i hi hlt
        dsimp only at hi
        exact h.cells i (by omega) hlt
      · dsimp only
        rw [hlen, List.take_add, ← h.popped_eq]
        have hexact : acc.length = n.toNat := by omega
        rw [← hexact, ← heq]
  next => simp at hstep

end Consumer

end Qanat
