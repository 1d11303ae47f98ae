import Qanat.RingInv

namespace Qanat

open Transition

def RingOk {α : Type} (cap : Nat) (c : RingSys α) : Prop :=
  ∃ heads P S, RingInv cap c heads P S

/-- One action of either side keeps the invariant, and what the producer has seen only grows. -/
theorem ringInv_step {α : Type} {cap P S : Nat} {c c' : RingSys α} {heads : List Nat} {a : RingAct α}
    (h : RingInv cap c heads P S) (hstep : ringStep c a = some c') :
    ∃ heads' P' S', S ≤ S' ∧ RingInv cap c' heads' P' S' := by
  cases a with
  | len =>
    obtain ⟨S', hle, h'⟩ := ringInv_len h hstep
    exact ⟨heads, P, S', hle, h'⟩
  | push => exact ⟨heads, P, S, le_refl S, ringInv_push h hstep⟩
  | loadHead =>
    obtain ⟨P', hle, h', -⟩ := ringInv_loadHead h hstep
    exact ⟨heads, P', P', hle, h'⟩
  | scribble => exact ⟨heads, P, S, le_refl S, ringInv_scribble h hstep⟩
  | finishWrite => exact ⟨heads, P, S, le_refl S, ringInv_finishWrite h hstep⟩
  | storeTail => exact ⟨heads, P, S, le_refl S, ringInv_storeTail h hstep⟩
  | pop => exact ⟨heads, P, S, le_refl S, ringInv_pop h hstep⟩
  | loadTail => exact ⟨heads, P, S, le_refl S, ringInv_loadTail h hstep⟩
  | copy => exact ⟨heads, P, S, le_refl S, ringInv_copy h hstep⟩
  | storeHead =>
    obtain ⟨heads', h'⟩ := ringInv_storeHead h hstep
    exact ⟨heads', P, S, le_refl S, h'⟩

theorem ringOk_step {α : Type} {cap : Nat} {c c' : RingSys α} {a : RingAct α} (hok : RingOk cap c)
    (hstep : ringStep c a = some c') : RingOk cap c' := by
  obtain ⟨heads, P, S, h⟩ := hok
  obtain ⟨heads', P', S', -, h'⟩ := ringInv_step h hstep
  exact ⟨heads', P', S', h'⟩

theorem ringInv_init {α : Type} {cap : UInt32} {buf : UInt32 → α} {r : Ring α}
    (h : ringInit cap buf = some r) :
    ∃ size, cap.toNat ≤ size ∧ r.mask.toNat + 1 = size ∧ RingInv size (ringStart r) [0] 0 0 := by
  unfold ringInit at h
  obtain ⟨size, hsize, rfl⟩ := Option.map_eq_some_iff.mp h
  obtain ⟨hle, k, hk, hk', hpow⟩ := pow2Ceil_spec hsize
  have hpos : 0 < 2 ^ k := Nat.pow_pos (by decide)
  have hmask : (size - 1).toNat = size.toNat - 1 :=
    UInt32.toNat_sub_of_le _ _ (UInt32.le_iff_toNat_le.mpr (by change 1 ≤ _; omega))
  refine ⟨size.toNat, hle, by dsimp only; omega, ?_⟩
  exact
    { pow := ⟨k, hk', hpow⟩
      mask := hmask
      tails_eq := rfl
      heads_eq := rfl
      heads_sorted := List.pairwise_singleton _ _
      heads_last := rfl
      seen := rfl
      cached := le_refl _
      tail := rfl
      head := rfl
      tailCache := rfl
      headCache := rfl
      lower := le_refl _
      upper := le_refl _
      room := Nat.zero_le _
      cells := fun i _ hi => absurd hi (Nat.not_lt_zero i)
      popped_eq := rfl
      prod := trivial
      cons := trivial
      refused := by simp [ringStart]
      dropped := rfl }

/-- The ring is a lossless FIFO, whatever the interleaving and however late the two sides see each
other's index. -/
theorem ring_lossless_fifo {α : Type} {cap : UInt32} {buf : UInt32 → α} {r : Ring α}
    (hinit : ringInit cap buf = some r) {c : RingSys α}
    (hreach : Reach ringStep (fun _ _ => True) (ringStart r) c) :
    c.taken <+: c.pushed ∧
    (∀ cell, c.writes = some cell → c.reads ≠ some cell) ∧
    (c.ring.tail - c.ring.head).toNat ≤ r.mask.toNat + 1 ∧
    c.refused.length = c.ring.dropped ∧ (∀ n ∈ c.refused, n = r.mask.toNat + 1) := by
  obtain ⟨size, -, hsize, h₀⟩ := ringInv_init hinit
  have hok : RingOk size c :=
    hreach.invariant ⟨_, _, _, h₀⟩ fun _ _ _ hc _ hstep => ringOk_step hc hstep
  obtain ⟨heads, P, S, h⟩ := hok
  rw [hsize]
  have hseen := h.seen_le
  have hcached := h.cached
  have hlow := h.lower
  have hup := h.upper
  have hroom := h.room
  have hcap := h.cap_le
  refine ⟨?_, ?_, ?_, h.dropped.symm, h.refused⟩
  · unfold RingSys.taken
    have hcons := h.cons
    split
    next head n acc hc =>
      rw [hc] at hcons
      rw [h.popped_eq, hcons.2.2.2, ← List.take_add]
      exact List.take_prefix _ _
    next =>
      rw [h.popped_eq]
      exact List.take_prefix _ _
  · intro cell hw hread
    have hcons := h.cons
    unfold RingSys.reads at hread
    split at hread
    next head n acc hc =>
      rw [hc] at hcons
      obtain ⟨rfl, hn, -, -⟩ := hcons
      split at hread
      next hmore =>
        obtain ⟨hT, hwrite⟩ : c.pushed.length - P < size ∧
            UInt32.ofNat c.pushed.length &&& c.ring.mask = cell := by
          have hprod := h.prod
          unfold RingSys.writes at hw
          split at hw
          next hp =>
            rw [hp] at hprod
            obtain ⟨rfl, hlt⟩ := hprod
            exact ⟨hlt, Option.some.inj hw⟩
          next hp =>
            rw [hp] at hprod
            obtain ⟨rfl, hlt, -⟩ := hprod
            exact ⟨hlt, Option.some.inj hw⟩
          next => simp at hw
        have hsame := Option.some.inj hread
        rw [← UInt32.ofNat_add, ← hwrite] at hsame
        exact h.cell_ne (show c.popped.length + acc.length < c.pushed.length by omega) (by omega) hsame
      next => simp at hread
    next => simp at hread
  · rw [h.tail, h.head, ofNat_sub_toNat (by omega) (by omega)]
    omega

/-- Four pushes on a ring of two cells: the third sees an old head and is refused, the fourth is half written
while the owner, who saw an old tail, copies the item before it. -/
def staleActs : List (RingAct Nat) :=
  [.push 5, .finishWrite, .storeTail, .push 6, .scribble 0, .finishWrite, .storeTail, .pop 4, .loadTail 1, .copy,
    .storeHead, .push 7, .loadHead 0, .push 7, .loadHead 1, .scribble 0, .pop 4, .loadTail 2, .finishWrite, .copy,
    .storeHead, .storeTail, .pop 1, .loadTail 3, .copy]

theorem ring_stale_views : ∃ (r : Ring Nat) (c : RingSys Nat), ringInit 1 (fun _ => 0) = some r ∧
    staleActs.foldlM ringStep (ringStart r) = some c ∧ c.taken = [5, 6, 7] ∧ c.refused = [2] ∧ c.taken <+: c.pushed ∧
    c.ring.dropped = 1 := by
  obtain ⟨r, hinit⟩ : ∃ r, ringInit 1 (fun _ => 0) = some r := ⟨_, rfl⟩
  have hrun : ((ringInit 1 (fun _ => 0)).bind fun r => staleActs.foldlM ringStep (ringStart r)).map
      (fun c => (c.taken, c.refused)) = some ([5, 6, 7], [2]) := by decide
  rw [hinit, Option.bind_some] at hrun
  obtain ⟨c, hc, hend⟩ := Option.map_eq_some_iff.mp hrun
  obtain ⟨htaken, hrefused⟩ := Prod.mk.inj hend
  have hreach : Reach ringStep (fun _ _ => True) (ringStart r) c := Reach.refl.actions (fun _ _ _ => trivial) hc
  obtain ⟨htook, -, -, hdropped, -⟩ := ring_lossless_fifo hinit hreach
  rw [hrefused] at hdropped
  exact ⟨r, c, hinit, hc, htaken, hrefused, htook, hdropped.symm⟩

variable {α : Type}

def PopPc.isIdle : PopPc α → Bool
  | .idle => true
  | _ => false

/-- The items `qn_ring_pop_batch` copies out. -/
def batchItems (r : Ring α) (n : Nat) : List α :=
  (List.range n).map fun i => r.buf ((r.head + UInt32.ofNat i) &&& r.mask)

/-- A whole call of `qn_ring_pop_batch` when the producer has been joined, so that a load of `tail`
returns its last value. -/
def ringPopBatch (c : RingSys α) (max : UInt32) : RingSys α × List α :=
  let c := if c.ring.head = c.ring.headCache
    then { c with tailSeen := c.tails.length - 1, ring := { c.ring with headCache := c.ring.tail } }
    else c
  if c.ring.head = c.ring.headCache then (c, [])
  else
    let n := popCount c.ring.headCache c.ring.head max
    let items := batchItems c.ring n.toNat
    ({ c with
        ring := { c.ring with head := c.ring.head + n }
        heads := c.heads ++ [c.ring.head + n]
        popped := c.popped ++ items }, items)

/-- The copies of a batch, one cell at a time. -/
theorem reach_copies {start c : RingSys α} {n : UInt32}
    (h : Reach ringStep (fun _ _ => True) start { c with cons := .copying c.ring.head n [] }) (k : Nat)
    (hk : k ≤ n.toNat) :
    Reach ringStep (fun _ _ => True) start { c with cons := .copying c.ring.head n (batchItems c.ring k) } := by
  induction k with
  | zero => exact h
  | succ k ih =>
    have hlen : (batchItems c.ring k).length = k := by simp [batchItems]
    refine (ih (by omega)).tail (a := .copy) trivial ?_
    simp only [ringStep]
    rw [hlen, if_pos (by omega)]
    unfold batchItems
    rw [List.range_succ, List.map_append, List.map_singleton]

/-- From a batch that is about to copy to its end. -/
theorem reach_batch {start c : RingSys α} (n : UInt32)
    (h : Reach ringStep (fun _ _ => True) start { c with cons := .copying c.ring.head n [] })
    (hidle : c.cons = .idle) :
    Reach ringStep (fun _ _ => True) start
      { c with
        ring := { c.ring with head := c.ring.head + n }
        heads := c.heads ++ [c.ring.head + n]
        popped := c.popped ++ batchItems c.ring n.toNat } := by
  have hlen : (batchItems c.ring n.toNat).length = n.toNat := by simp [batchItems]
  refine (reach_copies h n.toNat (le_refl _)).tail (a := .storeHead) trivial ?_
  simp only [ringStep]
  rw [if_neg (by omega), hidle]

theorem ringPopBatch_reach {cap P S : Nat} {c : RingSys α} {heads : List Nat} (h : RingInv cap c heads P S)
    (hidle : c.cons = .idle) (max : UInt32) :
    Reach ringStep (fun _ _ => True) c (ringPopBatch c max).1 := by
  have hup := h.upper
  have hlen : c.tails.length = c.pushed.length + 1 := by rw [h.tails_eq]; simp
  have hlast : c.tails[c.tails.length - 1]? = some c.ring.tail := by
    rw [hlen, h.tails_eq, h.tail, List.getElem?_map, List.getElem?_range (by omega)]
    rfl
  unfold ringPopBatch
  dsimp only
  by_cases hsame : c.ring.head = c.ring.headCache
  · rw [if_pos hsame]
    have hreload : Reach ringStep (fun _ _ => True) c { c with cons := .reload c.ring.head max } := by
      refine Reach.refl.tail (a := .pop max) trivial ?_
      simp only [ringStep, hidle]
      rw [if_pos hsame]
    dsimp only
    by_cases hempty : c.ring.head = c.ring.tail
    · rw [if_pos hempty]
      refine hreload.tail (a := .loadTail (c.tails.length - 1)) trivial ?_
      simp only [ringStep, hlast]
      rw [if_neg (by omega), if_pos hempty, ← hidle]
    · rw [if_neg hempty]
      refine reach_batch (c := { c with
        tailSeen := c.tails.length - 1, ring := { c.ring with headCache := c.ring.tail } }) _ ?_ hidle
      refine hreload.tail (a := .loadTail (c.tails.length - 1)) trivial ?_
      simp only [ringStep, hlast]
      rw [if_neg (by omega), if_neg hempty]
  · rw [if_neg hsame, if_neg hsame]
    refine reach_batch _ ?_ hidle
    refine Reach.refl.tail (a := .pop max) trivial ?_
    simp only [ringStep, hidle]
    rw [if_neg hsame]

theorem ringPopBatch_frame (c : RingSys α) (max : UInt32) :
    (ringPopBatch c max).1.pushed = c.pushed ∧ (ringPopBatch c max).1.prod = c.prod ∧
    (ringPopBatch c max).1.cons = c.cons ∧ (ringPopBatch c max).1.ring.dropped = c.ring.dropped ∧
    (ringPopBatch c max).1.popped = c.popped ++ (ringPopBatch c max).2 := by
  unfold ringPopBatch
  dsimp only
  split_ifs <;> simp

theorem batchItems_ne_nil (r : Ring α) {headCache max : UInt32} (hne : r.head ≠ headCache) (hmax : max ≠ 0) :
    batchItems r (popCount headCache r.head max).toNat ≠ [] := by
  have hcount : popCount headCache r.head max ≠ 0 := by
    unfold popCount
    dsimp only
    split
    next => exact hmax
    next =>
      intro hzero
      rw [UInt32.sub_eq_iff_eq_add, UInt32.zero_add] at hzero
      exact hne hzero.symm
  intro hnil
  have hlen := congrArg List.length hnil
  rw [batchItems, List.length_map, List.length_range] at hlen
  exact hcount (UInt32.toNat_inj.mp hlen)

/-- A batch that brings nothing has found the ring empty. -/
theorem ringPopBatch_nil {cap P S : Nat} {c : RingSys α} {heads : List Nat} (h : RingInv cap c heads P S)
    {max : UInt32} (hmax : max ≠ 0) (hnil : (ringPopBatch c max).2 = []) :
    c.popped.length = c.pushed.length := by
  have hlow := h.lower
  have hup := h.upper
  have hroom := h.room
  have hcap := h.cap_le
  have hcached := h.cached
  have hseen := h.seen_le
  unfold ringPopBatch at hnil
  dsimp only at hnil
  by_cases hsame : c.ring.head = c.ring.headCache
  · rw [if_pos hsame] at hnil
    dsimp only at hnil
    by_cases hempty : c.ring.head = c.ring.tail
    · rw [h.head, h.tail] at hempty
      exact (ofNat_eq_iff (by omega) (by omega)).mp hempty
    · rw [if_neg hempty] at hnil
      exact absurd hnil (batchItems_ne_nil { c.ring with headCache := c.ring.tail } hempty hmax)
  · rw [if_neg hsame, if_neg hsame] at hnil
    exact absurd hnil (batchItems_ne_nil c.ring hsame hmax)

/-- The item of a push under way. -/
def PushPc.item {α : Type} : PushPc α → Option α
  | .idle => none
  | .reload item _ => some item
  | .writing item _ => some item
  | .written item _ => some item

/-- The items given to `qn_ring_push`, the one under way included. -/
def RingSys.sent {α : Type} (c : RingSys α) : List α :=
  c.pushed ++ c.prod.item.toList

/-- Nothing has been dropped, and `n` more pushes will fit whatever the consumer does: the reserve is
counted from the newest head the producer has seen. -/
def RingRoom {α : Type} (cap n : Nat) (c : RingSys α) : Prop :=
  ∃ heads P S, RingInv cap c heads P S ∧ c.sent.length + n ≤ S + cap ∧ c.ring.dropped = 0

def RingAct.isPush {α : Type} : RingAct α → Bool
  | .push _ => true
  | _ => false

theorem sent_length {α : Type} (c : RingSys α) :
    c.sent.length = c.pushed.length + c.prod.item.toList.length := by
  unfold RingSys.sent
  exact List.length_append

theorem RingRoom.mono {α : Type} {cap m n : Nat} {c : RingSys α} (h : RingRoom cap n c) (hle : m ≤ n) :
    RingRoom cap m c := by
  obtain ⟨heads, P, S, hinv, hroom, hdrop⟩ := h
  exact ⟨heads, P, S, hinv, by omega, hdrop⟩

/-- A push takes one of the reserved places. -/
theorem RingRoom.push {α : Type} {cap n : Nat} {c c' : RingSys α} {item : α}
    (h : RingRoom cap (n + 1) c) (hstep : ringStep c (.push item) = some c') :
    RingRoom cap n c' ∧ c'.sent = c.sent ++ [item] := by
  obtain ⟨heads, P, S, hinv, hroom, hdrop⟩ := h
  have hinv' := ringInv_push hinv hstep
  have hsent : c'.sent = c.sent ++ [item] ∧ c'.ring.dropped = c.ring.dropped := by
    simp only [ringStep] at hstep
    split at hstep
    next hidle =>
      split at hstep
      all_goals
        obtain rfl := Option.some.inj hstep
        simp [RingSys.sent, hidle, PushPc.item]
    next => simp at hstep
  refine ⟨⟨heads, P, S, hinv', ?_, ?_⟩, hsent.1⟩
  · rw [hsent.1, List.length_append, List.length_singleton]
    omega
  · rw [hsent.2]
    exact hdrop

/-- The remaining operations write neither what was given to the producer nor `dropped`. -/
theorem ringStep_quiet {α : Type} {c c' : RingSys α} {a : RingAct α} (hpush : a.isPush = false)
    (hload : ∀ j, a ≠ .loadHead j) (hstep : ringStep c a = some c') :
    c'.sent = c.sent ∧ c'.ring.dropped = c.ring.dropped := by
  cases a with
  | push => simp [RingAct.isPush] at hpush
  | loadHead j => exact absurd rfl (hload j)
  | _ =>
    simp only [ringStep] at hstep
    repeat' split at hstep
    all_goals first
      | (obtain rfl := Option.some.inj hstep
         simp_all [RingSys.sent, PushPc.item, Ring.setCell])
      | simp at hstep

theorem ringStep_idle {α : Type} {c c' : RingSys α} {a : RingAct α} (hidle : c.prod = .idle)
    (hpush : a.isPush = false) (hstep : ringStep c a = some c') : c'.prod = .idle := by
  cases a with
  | push => simp [RingAct.isPush] at hpush
  | _ =>
    simp only [ringStep, hidle] at hstep
    repeat' split at hstep
    all_goals first
      | (obtain rfl := Option.some.inj hstep
         rfl)
      | simp at hstep

/-- Every other operation of either side keeps the reserve; in particular a push that reloads the
head is never refused. -/
theorem RingRoom.other {α : Type} {cap n : Nat} {c c' : RingSys α} {a : RingAct α}
    (h : RingRoom cap n c) (ha : a.isPush = false) (hstep : ringStep c a = some c') :
    RingRoom cap n c' ∧ c'.sent = c.sent := by
  obtain ⟨heads, P, S, hinv, hroom, hdrop⟩ := h
  by_cases hload : ∃ j, a = .loadHead j
  · obtain ⟨j, rfl⟩ := hload
    obtain ⟨P', hle, hinv', hpushed, item, tail, hprod, hcase⟩ := ringInv_loadHead hinv hstep
    have hlen := sent_length c
    simp only [hprod, PushPc.item, Option.toList_some, List.length_singleton] at hlen
    rcases hcase with hfull | ⟨hdrop', hprod'⟩
    · omega
    · have hsent : c'.sent = c.sent := by
        simp [RingSys.sent, hpushed, hprod, hprod', PushPc.item]
      refine ⟨⟨heads, P', P', hinv', ?_, ?_⟩, hsent⟩
      · rw [hsent]
        omega
      · rw [hdrop']
        exact hdrop
  · obtain ⟨hsent, hdrop'⟩ := ringStep_quiet ha (fun j hj => hload ⟨j, hj⟩) hstep
    obtain ⟨heads', P', S', hle, hinv'⟩ := ringInv_step hinv hstep
    refine ⟨⟨heads', P', S', hinv', ?_, ?_⟩, hsent⟩
    · rw [hsent]
      omega
    · rw [hdrop']
      exact hdrop

/-- The test by which `worker_fill` reserves places: after it two more pushes fit than are owed. -/
theorem RingRoom.reserve {α : Type} {cap n : Nat} {c : RingSys α} (h : RingRoom cap n c)
    (hidle : c.prod = .idle) (hspace : ringLen c + UInt32.ofNat n + 1 < c.ring.mask + 1) :
    RingRoom cap (n + 2) c := by
  obtain ⟨heads, P, S, hinv, hroom, hdrop⟩ := h
  have hcap := hinv.cap_le
  have hpos := hinv.cap_pos
  have hseen := hinv.seen_le
  have hlow := hinv.lower
  have hup := hinv.upper
  have hlen := sent_length c
  simp only [hidle, PushPc.item, Option.toList_none, List.length_nil] at hlen
  have hring : (ringLen c).toNat = c.pushed.length - S := by
    unfold ringLen
    rw [hinv.heads_eq, List.getElem?_map, hinv.seen, hinv.tail]
    exact ofNat_sub_toNat (by omega) (by omega)
  have hmask : (c.ring.mask + 1).toNat = cap := by
    rw [UInt32.toNat_add, hinv.mask]
    change (cap - 1 + 1) % 2 ^ 32 = cap
    rw [Nat.mod_eq_of_lt (by omega)]
    omega
  have hsum : (ringLen c + UInt32.ofNat n + 1).toNat = c.pushed.length - S + n + 1 := by
    rw [UInt32.toNat_add, UInt32.toNat_add, hring, UInt32.toNat_ofNat']
    change ((c.pushed.length - S + n % 2 ^ 32) % 2 ^ 32 + 1) % 2 ^ 32 = _
    rw [Nat.mod_eq_of_lt (show n < 2 ^ 32 by omega), Nat.mod_eq_of_lt (show _ < 2 ^ 32 by omega),
      Nat.mod_eq_of_lt (show _ < 2 ^ 32 by omega)]
  rw [UInt32.lt_iff_toNat_lt, hsum, hmask] at hspace
  exact ⟨heads, P, S, hinv, by omega, hdrop⟩

theorem ringRoom_start {α : Type} {cap : UInt32} {buf : UInt32 → α} {r : Ring α}
    (h : ringInit cap buf = some r) : ∃ size, RingRoom size 0 (ringStart r) := by
  obtain ⟨size, -, -, hinv⟩ := ringInv_init h
  refine ⟨size, [0], 0, 0, hinv, Nat.zero_le _, ?_⟩
  rw [hinv.dropped]
  rfl

end Qanat
