import Qanat.Store
import Qanat.General.Keyed

namespace Qanat

/-- The fields of an entry are in the ranges of their types. -/
structure StoreEntry.Fits (e : StoreEntry) : Prop where
  lastSeen : e.lastSeen < 2 ^ 64
  runs : e.runs < 2 ^ 32
  score : e.score < 2 ^ 32
  weight : e.weight < 2 ^ 32
  operMask : e.operMask < 2 ^ 32
  handshakeUs : e.handshakeUs < 2 ^ 32

/-- The relations between fields that the loader asks for. -/
structure StoreEntry.Sane (e : StoreEntry) : Prop where
  score_le : e.score ≤ e.weight
  idle : e.runs = 0 ↔ e.weight = 0

structure Listing (cap : Nat) (l : List StoreEntry) : Prop where
  fits : ∀ e ∈ l, e.Fits
  distinct : (l.map StoreEntry.addr).Nodup
  room : l.length ≤ cap

structure StoreValid (cap : Nat) (l : List StoreEntry) : Prop extends Listing cap l where
  sane : ∀ e ∈ l, e.Sane

section Entry

variable {e : StoreEntry}

theorem StoreEntry.fits_fresh (a : Addr) : (StoreEntry.fresh a).Fits := by
  constructor <;> exact Nat.two_pow_pos _

theorem StoreEntry.sane_fresh (a : Addr) : (StoreEntry.fresh a).Sane :=
  ⟨Nat.le_refl 0, Iff.rfl⟩

theorem decayLoop_le (n q dt : Nat) : (decayLoop n q dt).1 ≤ q := by
  induction n generalizing q dt with
  | zero => exact Nat.le_refl q
  | succ n ih =>
    rw [decayLoop]
    split
    next => exact (ih _ _).trans (by rw [Nat.shiftRight_eq_div_pow]; exact Nat.div_le_self _ _)
    next => exact Nat.le_refl q

theorem decayQ10_le (dt : Nat) : decayQ10 dt ≤ q10 := by
  have h := decayLoop_le 10 q10 dt
  unfold decayQ10
  dsimp only
  split
  next => exact (Nat.sub_le _ _).trans h
  next => exact h

theorem StoreEntry.decay_le (e : StoreEntry) (now : Nat) : e.decay now ≤ q10 := by
  unfold StoreEntry.decay
  split
  next => exact decayQ10_le _
  next => exact Nat.le_refl _

/-- What fades does not grow. -/
theorem faded_le {d : Nat} (hd : d ≤ q10) (v : Nat) : v * d / q10 ≤ v :=
  Nat.div_le_of_le_mul (by rw [Nat.mul_comm q10]; exact Nat.mul_le_mul_left v hd)

theorem operBit_lt (oper : Bytes) : operBit oper < 2 ^ 32 := by
  unfold operBit
  rw [Nat.one_shiftLeft]
  refine Nat.pow_lt_pow_right (by decide) ?_
  rw [UInt32.toNat_and]
  exact Nat.lt_of_le_of_lt Nat.and_le_right (by decide)

/-- Halving keeps the order of the two sums and leaves room for one more observation. -/
theorem halved_room {score weight : Nat} (h : score ≤ weight) (hw : weight < 2 ^ 32) :
    let full := 2 ^ 32 - 1 - q10 < score ∨ 2 ^ 32 - 1 - q10 < weight
    (if full then (score + 1) / 2 else score) ≤ (if full then (weight + 1) / 2 else weight) ∧
      (if full then (weight + 1) / 2 else weight) + q10 < 2 ^ 32 := by
  have hq : q10 = 1024 := rfl
  by_cases hf : 2 ^ 32 - 1 - q10 < score ∨ 2 ^ 32 - 1 - q10 < weight
  · simp only [if_pos hf]
    omega
  · simp only [if_neg hf]
    omega

variable {oper : Bytes} {good : Bool} {handshakeUs now : Nat}

/-- The sums of an entry after an observation, before they are stored in 32 bits. -/
theorem observeEntry_sums (hfit : e.Fits) (hsane : e.Sane) :
    (observeEntry id oper good handshakeUs now e).score ≤ (observeEntry id oper good handshakeUs now e).weight ∧
      q10 ≤ (observeEntry id oper good handshakeUs now e).weight ∧
      (observeEntry id oper good handshakeUs now e).weight < 2 ^ 32 := by
  have hd := e.decay_le (if e.lastSeen ≠ 0 ∧ now < e.lastSeen then e.lastSeen else now)
  have hle : e.score * e.decay (if e.lastSeen ≠ 0 ∧ now < e.lastSeen then e.lastSeen else now) / q10 ≤
      e.weight * e.decay (if e.lastSeen ≠ 0 ∧ now < e.lastSeen then e.lastSeen else now) / q10 :=
    Nat.div_le_div_right (Nat.mul_le_mul_right _ hsane.score_le)
  obtain ⟨hsum, hroom⟩ := halved_room hle ((faded_le hd e.weight).trans_lt hfit.weight)
  unfold observeEntry
  dsimp only [id]
  refine ⟨?_, Nat.le_add_left _ _, hroom⟩
  cases good
  · exact hsum.trans (Nat.le_add_right _ _)
  · exact Nat.add_le_add_right hsum q10

theorem observeEntry_runs (h : e.Fits) :
    (observeEntry id oper good handshakeUs now e).runs < 2 ^ 32 ∧ 0 < (observeEntry id oper good handshakeUs now e).runs := by
  have := h.runs
  unfold observeEntry
  dsimp only [id]
  split <;> omega

theorem observeEntry_handshake (h : e.Fits) (hh : handshakeUs < 2 ^ 32) :
    (observeEntry id oper good handshakeUs now e).handshakeUs < 2 ^ 32 := by
  have := h.handshakeUs
  unfold observeEntry
  dsimp only [id]
  split
  next => split <;> omega
  next => exact this

/-- No 32-bit field of an entry wraps under an observation. -/
theorem observeEntry_cast (hfit : e.Fits) (hsane : e.Sane) (hh : handshakeUs < 2 ^ 32) :
    observeEntry (· % 2 ^ 32) oper good handshakeUs now e = observeEntry id oper good handshakeUs now e := by
  obtain ⟨hscore, -, hweight⟩ := @observeEntry_sums e oper good handshakeUs now hfit hsane
  have hruns := (@observeEntry_runs e oper good handshakeUs now hfit).1
  have hhand := @observeEntry_handshake e oper good handshakeUs now hfit hh
  have hscore := hscore.trans_lt hweight
  unfold observeEntry at hscore hweight hruns hhand ⊢
  dsimp only [id] at hscore hweight hruns hhand ⊢
  rw [Nat.mod_eq_of_lt hscore, Nat.mod_eq_of_lt hweight]
  congr 1
  · split
    next h =>
      rw [if_pos h] at hruns
      exact Nat.mod_eq_of_lt hruns
    next => rfl
  · cases good
    · rfl
    · rw [if_pos rfl, if_pos rfl]
      rw [if_pos rfl] at hhand
      split
      next h =>
        rw [if_pos h] at hhand
        exact Nat.mod_eq_of_lt hhand
      next => rfl

theorem observeEntry_sane (hfit : e.Fits) (hsane : e.Sane) : (observeEntry id oper good handshakeUs now e).Sane := by
  obtain ⟨hscore, hweight, -⟩ := @observeEntry_sums e oper good handshakeUs now hfit hsane
  have hruns := (@observeEntry_runs e oper good handshakeUs now hfit).2
  have hq : 0 < q10 := by decide
  exact ⟨hscore, by omega⟩

theorem observeEntry_lastSeen_le : e.lastSeen ≤ (observeEntry id oper good handshakeUs now e).lastSeen := by
  unfold observeEntry
  dsimp only
  split <;> omega

theorem observeEntry_fits (hfit : e.Fits) (hsane : e.Sane) (hh : handshakeUs < 2 ^ 32) (hnow : now < 2 ^ 64) :
    (observeEntry id oper good handshakeUs now e).Fits := by
  obtain ⟨hscore, -, hweight⟩ := @observeEntry_sums e oper good handshakeUs now hfit hsane
  refine ⟨?_, (observeEntry_runs hfit).1, hscore.trans_lt hweight, hweight, ?_, observeEntry_handshake hfit hh⟩
  · have := hfit.lastSeen
    unfold observeEntry
    dsimp only
    split <;> assumption
  · unfold observeEntry
    dsimp only
    cases good
    · exact hfit.operMask
    · exact Nat.or_lt_two_pow hfit.operMask (operBit_lt oper)

end Entry

section Observe

variable {s : Store} {a : Addr} {oper : Bytes} {good : Bool} {handshakeUs now : Nat}

/-- The entries that `slot_for` leaves are the old ones and perhaps a fresh one of an address that was absent. -/
theorem mem_slotFor {e : StoreEntry} (h : e ∈ (slotFor s a now).1) :
    e ∈ s.e ∨ e = .fresh a ∧ a ∉ s.e.map StoreEntry.addr := by
  unfold slotFor at h
  split at h
  next => exact .inl h
  next hnew =>
    have habs : a ∉ s.e.map StoreEntry.addr := fun hm => hnew ((Keyed.findIdx_lt_iff a).mpr hm)
    split at h
    next =>
      obtain h | h := List.mem_append.mp h
      · exact .inl h
      · exact .inr ⟨List.mem_singleton.mp h, habs⟩
    next =>
      obtain h | rfl := List.mem_or_eq_of_mem_set h
      · exact .inl h
      · exact .inr ⟨rfl, habs⟩

theorem slotFor_valid (h : StoreValid s.cap s.e) (a : Addr) (now : Nat) : StoreValid s.cap (slotFor s a now).1 := by
  have hmem : ∀ e ∈ (slotFor s a now).1, e.Fits ∧ e.Sane := by
    intro e he
    obtain he | ⟨rfl, -⟩ := mem_slotFor he
    · exact ⟨h.fits e he, h.sane e he⟩
    · exact ⟨StoreEntry.fits_fresh a, StoreEntry.sane_fresh a⟩
  refine ⟨⟨fun e he => (hmem e he).1, ?_, ?_⟩, fun e he => (hmem e he).2⟩
  · unfold slotFor
    split
    next => exact h.distinct
    next hnew =>
      have habs : a ∉ s.e.map StoreEntry.addr := fun hm => hnew ((Keyed.findIdx_lt_iff a).mpr hm)
      split
      next =>
        rw [List.map_append, List.map_singleton]
        refine List.nodup_append.mpr ⟨h.distinct, List.nodup_singleton _, fun x hx y hy e => ?_⟩
        obtain rfl : y = a := List.mem_singleton.mp hy
        exact habs (e ▸ hx)
      next =>
        rw [List.map_set]
        exact h.distinct.set habs
  · have := h.room
    unfold slotFor
    split
    next => exact this
    next =>
      split
      next hlt =>
        rw [List.length_append, List.length_singleton]
        exact hlt
      next =>
        rw [List.length_set]
        exact this

/-- Observing in exact numbers is observing in 32 bits. -/
theorem storeObserve_eq (h : StoreValid s.cap s.e) (hh : handshakeUs < 2 ^ 32) :
    storeObserve s a oper good handshakeUs now = observeAs id s a oper good handshakeUs now := by
  have hslot := slotFor_valid h a now
  unfold storeObserve observeAs
  dsimp only
  rw [Keyed.modify_congr fun e he => observeEntry_cast (hslot.fits e he) (hslot.sane e he) hh]

theorem observeAs_cap (cast : Nat → Nat) : (observeAs cast s a oper good handshakeUs now).cap = s.cap := by
  unfold observeAs
  split <;> rfl

theorem mem_observeAs {e : StoreEntry} (h : e ∈ (observeAs id s a oper good handshakeUs now).e) :
    e ∈ s.e ∨ ∃ x ∈ (slotFor s a now).1, e = x ∨ e = observeEntry id oper good handshakeUs now x := by
  unfold observeAs at h
  split at h
  next => exact .inl h
  next => exact .inr (Keyed.mem_modify h)

theorem observe_valid (h : StoreValid s.cap s.e) (hh : handshakeUs < 2 ^ 32) (hnow : now < 2 ^ 64) :
    StoreValid s.cap (observeAs id s a oper good handshakeUs now).e := by
  have hslot := slotFor_valid h a now
  unfold observeAs
  split
  next => exact h
  next =>
    refine ⟨⟨?_, ?_, ?_⟩, ?_⟩
    · intro e he
      obtain ⟨x, hx, rfl | rfl⟩ := Keyed.mem_modify he
      · exact hslot.fits e hx
      · exact observeEntry_fits (hslot.fits x hx) (hslot.sane x hx) hh hnow
    · dsimp only
      have haddr : ∀ x, (observeEntry id oper good handshakeUs now x).addr = x.addr := fun _ => rfl
      rw [Keyed.map_key_modify haddr]
      exact hslot.distinct
    · dsimp only
      rw [List.length_modify]
      exact hslot.room
    · intro e he
      obtain ⟨x, hx, rfl | rfl⟩ := Keyed.mem_modify he
      · exact hslot.sane e hx
      · exact observeEntry_sane (hslot.fits x hx) (hslot.sane x hx)

/-- `last_seen` of an address does not go back under an observation. -/
theorem observe_lastSeen_le (h : StoreValid s.cap s.e) {e e' : StoreEntry} (he : e ∈ s.e)
    (he' : e' ∈ (observeAs id s a oper good handshakeUs now).e) (haddr : e'.addr = e.addr) : e.lastSeen ≤ e'.lastSeen := by
  have hsame : ∀ x ∈ s.e, x.addr = e.addr → x = e := fun x hx => List.inj_on_of_nodup_map h.distinct hx he
  obtain hold | ⟨x, hx, hx'⟩ := mem_observeAs he'
  · rw [hsame e' hold haddr]
  · have hle : x.addr = e'.addr ∧ x.lastSeen ≤ e'.lastSeen := by
      obtain rfl | rfl := hx'
      · exact ⟨rfl, Nat.le_refl _⟩
      · exact ⟨rfl, observeEntry_lastSeen_le⟩
    obtain hx | ⟨rfl, habs⟩ := mem_slotFor hx
    · rw [← hsame x hx (hle.1.trans haddr)]
      exact hle.2
    · exact absurd (List.mem_map.mpr ⟨e, he, (hle.1.trans haddr).symm⟩) habs

end Observe

end Qanat
