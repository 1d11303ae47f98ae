import Qanat.CidrOrder
import Qanat.General.Block

namespace Qanat

def Prefix.base (p : Prefix) : Nat :=
  match p.net with
  | .v4 a => a.toNat
  | .v6 _ => 0

def Prefix.size (p : Prefix) : Nat :=
  2 ^ (32 - p.bits)

/-- An IPv4 prefix that `qn_cidr_set_add` accepts: no bit of the network address lies outside its
mask. -/
structure Prefix.CanonV4 (p : Prefix) : Prop where
  net : ∃ a, p.net = .v4 a
  bits : p.bits ≤ 32
  aligned : p.size ∣ p.base
  count : p.count = prefixHosts p

def Prefix.Covers (p : Prefix) (x : Nat) : Prop :=
  p.base ≤ x ∧ x < p.base + p.size

def covered (v : List Prefix) (x : Nat) : Prop :=
  ∃ p ∈ v, p.Covers x

theorem prefixHosts_v4 {p : Prefix} (hp : p.CanonV4) : prefixHosts p = p.size := by
  obtain ⟨a, ha⟩ := hp.net
  have hbits := hp.bits
  unfold prefixHosts Prefix.size
  rw [ha]
  dsimp only
  rw [if_neg (by omega)]
  split
  next h =>
    rw [show 32 - p.bits = 0 by omega]
    rfl
  next => rw [Nat.one_shiftLeft]

theorem maskV4_toNat (a : UInt32) {bits : Nat} (hbits : bits ≤ 32) :
    (a &&& maskV4 bits).toNat = a.toNat &&& ((2 ^ 32 - 1) <<< (32 - bits) % 2 ^ 32) := by
  rw [UInt32.toNat_and]
  unfold maskV4
  split
  next h =>
    subst h
    have hzero : (2 ^ 32 - 1) <<< (32 - 0) % 2 ^ 32 = 0 := by decide
    rw [hzero]
    rfl
  next h =>
    rw [UInt32.toNat_shiftLeft, UInt32.toNat_ofNat_of_lt' (by change 32 - bits < 2 ^ 32; omega),
      Nat.mod_eq_of_lt (show 32 - bits < 32 by omega)]
    rfl

theorem masked_eq_iff (a x : UInt32) {bits : Nat} (hbits : bits ≤ 32) (hx : 2 ^ (32 - bits) ∣ x.toNat) :
    a &&& maskV4 bits = x ↔ x.toNat ≤ a.toNat ∧ a.toNat < x.toNat + 2 ^ (32 - bits) := by
  rw [← UInt32.toNat_inj, maskV4_toNat a hbits]
  exact Block.and_highMask_eq_iff a.toNat_lt hx

/-- `qn_cidr_set_add` takes just the canonical prefixes, while there is room. -/
theorem cidrSetAdd_iff_v4 {s s' : CidrSet} {p : Prefix} {a : UInt32} (ha : p.net = .v4 a) :
    cidrSetAdd s p = some s' ↔ p.CanonV4 ∧ s.v.length < s.cap ∧ s' = { s with v := s.v ++ [p] } := by
  unfold cidrSetAdd
  constructor
  · intro h
    split at h
    next => simp at h
    next hcond =>
      rw [ha] at h
      dsimp only at h
      split at h
      next => simp at h
      next hmask =>
        push Not at hcond hmask
        obtain ⟨hroom, hcount, hhosts⟩ := hcond
        have hbits : p.bits ≤ 32 := by
          by_contra hgt
          unfold prefixHosts at hhosts
          rw [ha] at hhosts
          dsimp only at hhosts
          rw [if_pos (by omega)] at hhosts
          exact hcount hhosts
        refine ⟨⟨⟨a, ha⟩, hbits, ?_, hhosts⟩, hroom, (Option.some.inj h).symm⟩
        have hnat := maskV4_toNat a hbits
        rw [hmask, Block.and_highMask a.toNat_lt] at hnat
        unfold Prefix.base Prefix.size
        rw [ha]
        exact ⟨a.toNat / 2 ^ (32 - p.bits), by rw [Nat.mul_comm]; exact hnat⟩
  · rintro ⟨hp, hroom, rfl⟩
    have hpos : 0 < p.size := Nat.pow_pos (by decide)
    have hcount := hp.count
    have hhosts := prefixHosts_v4 hp
    have halign : 2 ^ (32 - p.bits) ∣ a.toNat := by
      have := hp.aligned
      unfold Prefix.base Prefix.size at this
      rwa [ha] at this
    have hmask : a &&& maskV4 p.bits = a :=
      (masked_eq_iff a a hp.bits halign).mpr ⟨Nat.le_refl _, Nat.lt_add_of_pos_right (Nat.pow_pos (by decide))⟩
    rw [if_neg (by omega), ha]
    dsimp only
    rw [if_neg (not_not.mpr hmask)]

section Blocks

variable {p q : Prefix} (hp : p.CanonV4) (hq : q.CanonV4)
include hp

theorem Prefix.CanonV4.end_le : p.base + p.size ≤ 2 ^ 32 := by
  obtain ⟨a, ha⟩ := hp.net
  have hlt : p.base < 0 + 2 ^ 32 := by
    unfold Prefix.base
    rw [ha]
    have := a.toNat_lt
    omega
  have := Block.end_le (Nat.dvd_zero _) (Nat.pow_dvd_pow 2 (Nat.sub_le 32 p.bits)) hp.aligned hlt
  rwa [Nat.zero_add] at this

include hq

theorem prefixContains_v4 : prefixContains p q = true ↔
    p.bits ≤ q.bits ∧ p.base ≤ q.base ∧ q.base < p.base + p.size := by
  obtain ⟨a, ha⟩ := hp.net
  obtain ⟨b, hb⟩ := hq.net
  have halign : 2 ^ (32 - p.bits) ∣ a.toNat := by
    have := hp.aligned
    unfold Prefix.base Prefix.size at this
    rwa [ha] at this
  unfold prefixContains Prefix.base Prefix.size
  rw [ha, hb]
  simp only [Bool.and_eq_true, decide_eq_true_eq, beq_iff_eq]
  rw [masked_eq_iff b a hp.bits halign]

/-- What is merged are two halves that meet, the lower one first. -/
theorem mergeSiblings_v4 {m : Prefix} (h : mergeSiblings p q = some m) :
    m.CanonV4 ∧ m.base = p.base ∧ m.bits + 1 = p.bits ∧ p.bits = q.bits ∧ p.base + p.size = q.base := by
  obtain ⟨a, ha⟩ := hp.net
  obtain ⟨b, hb⟩ := hq.net
  have hbits := hp.bits
  unfold mergeSiblings at h
  rw [ha, hb] at h
  dsimp only at h
  split at h
  next => simp at h
  next hcond =>
    push Not at hcond
    split at h
    next => simp at h
    next hadj =>
      push Not at hadj
      obtain ⟨hnext, halign⟩ := hadj
      rw [Nat.one_shiftLeft] at hnext halign
      obtain rfl := Option.some.inj h
      refine ⟨⟨⟨a, rfl⟩, by dsimp only; omega, ?_, rfl⟩, ?_, by dsimp only; omega, hcond.2, ?_⟩
      · unfold Prefix.base Prefix.size
        dsimp only
        rw [show 32 - (p.bits - 1) = 32 - p.bits + 1 by omega, Nat.pow_succ]
        exact Nat.dvd_of_mod_eq_zero halign
      · unfold Prefix.base
        rw [ha]
      · unfold Prefix.base Prefix.size
        rw [ha, hb]
        exact hnext

end Blocks

def edgeOffset (skipEdges : Bool) (p : Prefix) : Nat :=
  if skipEdges && prefixHasEdges p then 1 else 0

theorem usable_v4 {p : Prefix} (hp : p.CanonV4) (skipEdges : Bool) :
    prefixUsable p skipEdges + 2 * edgeOffset skipEdges p = p.size := by
  unfold prefixUsable edgeOffset
  rw [prefixHosts_v4 hp]
  dsimp only
  have hpos : 0 < p.size := Nat.pow_pos (by decide)
  by_cases hedge : skipEdges && prefixHasEdges p
  · have htwo : 2 ≤ p.size := by
      obtain ⟨a, ha⟩ := hp.net
      have hbits : p.bits < 31 := by
        simp only [Bool.and_eq_true, prefixHasEdges, ha] at hedge
        simpa using hedge.2
      exact Nat.le_self_pow (by omega) 2
    have hcond : p.size ≠ 0 ∧ skipEdges = true ∧ prefixHasEdges p = true :=
      ⟨by omega, Bool.and_eq_true_iff.mp hedge⟩
    rw [if_pos hcond, if_pos hedge]
    omega
  · have hcond : ¬(p.size ≠ 0 ∧ skipEdges = true ∧ prefixHasEdges p = true) :=
      fun h => hedge (Bool.and_eq_true_iff.mpr h.2)
    rw [if_neg hcond, if_neg hedge]
    omega

theorem prefixNth_v4 {p : Prefix} (hp : p.CanonV4) {skipEdges : Bool} {k : Nat}
    (hk : k < prefixUsable p skipEdges) :
    ∃ a : UInt32, prefixNth skipEdges p k = .v4 a ∧ a.toNat = p.base + k + edgeOffset skipEdges p := by
  obtain ⟨a, ha⟩ := hp.net
  have hend := hp.end_le
  have husable := usable_v4 hp skipEdges
  have hbase : p.base = a.toNat := by
    unfold Prefix.base
    rw [ha]
  refine ⟨a + UInt32.ofNat k + (if skipEdges && prefixHasEdges p then 1 else 0), ?_, ?_⟩
  · unfold prefixNth
    rw [ha]
  · have hone : (if skipEdges && prefixHasEdges p then (1 : UInt32) else 0).toNat =
        edgeOffset skipEdges p := by
      unfold edgeOffset
      split <;> rfl
    rw [UInt32.toNat_add, UInt32.toNat_add, hone, UInt32.toNat_ofNat_of_lt' (by change k < 2 ^ 32; omega), ← hbase]
    rw [Nat.mod_eq_of_lt (show p.base + k < 2 ^ 32 by omega), Nat.mod_eq_of_lt (by omega)]

end Qanat
