import Qanat.CidrBytes
import Qanat.CidrV4
import Qanat.General.Dyadic

namespace Qanat

open Dyadic

/-- The place of an address on one line: IPv6 stands behind IPv4, at a multiple of its own size. -/
def Addr.place : Addr → Nat
  | .v4 a => a.toNat
  | .v6 b => 2 ^ 128 + v6Nat b

def Addr.width : Addr → Nat
  | .v4 _ => 32
  | .v6 _ => 128

def Addr.isV6 : Addr → Bool
  | .v4 _ => false
  | .v6 _ => true

/-- A prefix of either family that `qn_cidr_set_add` accepts. -/
structure Prefix.Canon (p : Prefix) : Prop where
  bits : p.bits ≤ p.net.width
  aligned : 2 ^ (p.net.width - p.bits) ∣ p.net.place
  count : p.count = prefixHosts p

def Prefix.Canon.cell {p : Prefix} (hp : p.Canon) : Cell :=
  ⟨p.net.place, p.net.width - p.bits, hp.aligned⟩

theorem Prefix.Canon.size_eq {p : Prefix} (hp : p.Canon) : hp.cell.size = 2 ^ (p.net.width - p.bits) := rfl

theorem Prefix.Canon.lo_eq {p : Prefix} (hp : p.Canon) : hp.cell.lo = p.net.place := rfl

theorem place_inj {x y : Addr} (h : x.place = y.place) : x = y := by
  cases x with
  | v4 a =>
    cases y with
    | v4 b => rw [UInt32.toNat_inj.mp h]
    | v6 b =>
      have := a.toNat_lt
      simp only [Addr.place] at h
      omega
  | v6 a =>
    cases y with
    | v4 b =>
      have := b.toNat_lt
      simp only [Addr.place] at h
      omega
    | v6 b =>
      simp only [Addr.place] at h
      have hnat : v6Nat a = v6Nat b := by omega
      rw [v6Nat_inj hnat]

theorem place_lt (x : Addr) : if x.isV6 then 2 ^ 128 ≤ x.place ∧ x.place < 2 ^ 129 else x.place < 2 ^ 32 := by
  cases x with
  | v4 a => exact a.toNat_lt
  | v6 b =>
    have := v6Nat_lt b
    simp only [Addr.isV6, if_true, Addr.place]
    omega

section Cells

variable {p q : Prefix} (hp : p.Canon) (hq : q.Canon)
include hp

/-- The addresses of a prefix stay in its family. -/
theorem Prefix.Canon.end_le : hp.cell.lo + hp.cell.size ≤ if p.net.isV6 then 2 ^ 129 else 2 ^ 32 := by
  have hplace := place_lt p.net
  have hdvd : 2 ^ (p.net.width - p.bits) ∣ 2 ^ p.net.width := Nat.pow_dvd_pow 2 (Nat.sub_le _ _)
  unfold Prefix.Canon.cell Cell.size
  dsimp only
  have haligned := hp.aligned
  cases hnet : p.net with
  | v4 a =>
    rw [hnet] at hplace hdvd haligned
    have := Block.end_le (x := 0) (Nat.dvd_zero _) hdvd haligned (by simpa [Addr.isV6, Addr.width] using hplace)
    simpa [Addr.isV6, Addr.width] using this
  | v6 b =>
    rw [hnet] at hplace hdvd haligned
    have := Block.end_le (x := 2 ^ 128) hdvd hdvd haligned (by simpa [Addr.isV6, Addr.width] using hplace.2)
    simpa [Addr.isV6, Addr.width] using this

include hq

theorem sameFamily_of_meet {x : Nat} (hx : hp.cell.Mem x) (hy : hq.cell.Mem x) : p.net.isV6 = q.net.isV6 := by
  have hpe := hp.end_le
  have hqe := hq.end_le
  have hpl := place_lt p.net
  have hql := place_lt q.net
  obtain ⟨hx₁, hx₂⟩ := hx
  obtain ⟨hy₁, hy₂⟩ := hy
  have hplo : hp.cell.lo = p.net.place := rfl
  have hqlo : hq.cell.lo = q.net.place := rfl
  cases hpf : p.net.isV6 <;> cases hqf : q.net.isV6
  · rfl
  · rw [hpf] at hpe
    rw [hqf] at hql
    simp only [Bool.false_eq_true, if_false, if_true] at hpe hql
    omega
  · rw [hpf] at hpl
    rw [hqf] at hqe
    simp only [Bool.false_eq_true, if_false, if_true] at hpl hqe
    omega
  · rfl

end Cells

theorem Addr.width_eq (x : Addr) : x.width = if x.isV6 then 128 else 32 := by
  cases x with
  | v4 => rfl
  | v6 => rfl

theorem Prefix.Canon.eq_of_cell {p q : Prefix} (hp : p.Canon) (hq : q.Canon) (h : hp.cell = hq.cell) : p = q := by
  have hnet : p.net = q.net := place_inj (congrArg Cell.lo h)
  have hexp : p.net.width - p.bits = q.net.width - q.bits := congrArg Cell.exp h
  have hpb := hp.bits
  have hqb := hq.bits
  have hpc := hp.count
  have hqc := hq.count
  obtain ⟨np, bp, cp⟩ := p
  obtain ⟨nq, bq, cq⟩ := q
  dsimp only at *
  subst hnet
  obtain rfl : bp = bq := by omega
  rw [hpc, hqc]
  rfl

theorem Prefix.Canon.canonV4 {p : Prefix} (hp : p.Canon) {a : UInt32} (ha : p.net = .v4 a) : p.CanonV4 := by
  have hbits := hp.bits
  have halign := hp.aligned
  rw [ha] at hbits halign
  refine ⟨⟨a, ha⟩, hbits, ?_, hp.count⟩
  unfold Prefix.size Prefix.base
  rw [ha]
  exact halign

theorem Prefix.Canon.dvd_v6 {p : Prefix} (hp : p.Canon) {b : Vector UInt8 16} (hb : p.net = .v6 b) :
    2 ^ (128 - p.bits) ∣ v6Nat b := by
  have halign := hp.aligned
  rw [hb] at halign
  exact (Nat.dvd_add_right (Nat.pow_dvd_pow 2 (Nat.sub_le 128 p.bits))).mp halign

theorem contains_v6_iff {p q : Prefix} (hp : p.Canon) {x y : Vector UInt8 16} (hx : p.net = .v6 x)
    (hy : q.net = .v6 y) : prefixContains p q = true ↔
      p.bits ≤ q.bits ∧ v6Nat x ≤ v6Nat y ∧ v6Nat y < v6Nat x + 2 ^ (128 - p.bits) := by
  have hbits := hp.bits
  rw [hx] at hbits
  unfold prefixContains
  rw [hx, hy]
  simp only [Bool.and_eq_true, decide_eq_true_eq]
  rw [allBits_iff x y hbits, Block.div_eq_iff (hp.dvd_v6 hx)]

/-- `prefix_contains` says that one block lies in the other. -/
theorem prefixContains_iff {p q : Prefix} (hp : p.Canon) (hq : q.Canon) :
    prefixContains p q = true ↔ hq.cell.Within hp.cell := by
  have hplo : hp.cell.lo = p.net.place := rfl
  have hqlo : hq.cell.lo = q.net.place := rfl
  have hpsize : hp.cell.size = 2 ^ (p.net.width - p.bits) := rfl
  have hpb := hp.bits
  have hqb := hq.bits
  have hmeet : hq.cell.Within hp.cell → p.net.isV6 = q.net.isV6 :=
    fun h => sameFamily_of_meet hp hq (h.mem hq.cell.mem_lo) hq.cell.mem_lo
  have hwithin (hfam : p.net.width = q.net.width) : p.bits ≤ q.bits ∧ hp.cell.Mem hq.cell.lo ↔
      hq.cell.Within hp.cell := by
    constructor
    · rintro ⟨hbits, hmem⟩
      refine Cell.within_of_meet ?_ hq.cell.mem_lo hmem
      change q.net.width - q.bits ≤ p.net.width - p.bits
      omega
    · intro h
      refine ⟨?_, h.mem hq.cell.mem_lo⟩
      have hexp : q.net.width - q.bits ≤ p.net.width - p.bits := h.exp_le
      omega
  cases hpn : p.net with
  | v4 a =>
    cases hqn : q.net with
    | v4 b =>
      rw [← hwithin (by rw [hpn, hqn]; rfl), prefixContains_v4 (hp.canonV4 hpn) (hq.canonV4 hqn)]
      unfold Cell.Mem Prefix.base Prefix.size
      rw [hplo, hqlo, hpsize, hpn, hqn]
      rfl
    | v6 b =>
      have hno : prefixContains p q = false := by
        unfold prefixContains
        rw [hpn, hqn]
      rw [hno]
      constructor
      · simp
      · intro h
        have := hmeet h
        rw [hpn, hqn] at this
        simp [Addr.isV6] at this
  | v6 a =>
    cases hqn : q.net with
    | v4 b =>
      have hno : prefixContains p q = false := by
        unfold prefixContains
        rw [hpn, hqn]
      rw [hno]
      constructor
      · simp
      · intro h
        have := hmeet h
        rw [hpn, hqn] at this
        simp [Addr.isV6] at this
    | v6 b =>
      rw [← hwithin (by rw [hpn, hqn]; rfl), contains_v6_iff hp hpn hqn]
      unfold Cell.Mem
      rw [hplo, hqlo, hpsize, hpn, hqn]
      simp only [Addr.place, Addr.width]
      omega

/-- A prefix whose addresses are all enumerated. -/
def Prefix.Whole (p : Prefix) (hp : p.Canon) : Prop :=
  prefixUsable p false = hp.cell.size

theorem usable_hosts (p : Prefix) : prefixUsable p false = prefixHosts p := by
  simp [prefixUsable]

theorem whole_v4 {p : Prefix} (hp : p.Canon) {a : UInt32} (ha : p.net = .v4 a) : p.Whole hp := by
  unfold Prefix.Whole
  rw [usable_hosts, prefixHosts_v4 (hp.canonV4 ha), hp.size_eq, ha]
  rfl

theorem hosts_v6 {p : Prefix} (hp : p.Canon) {b : Vector UInt8 16} (hb : p.net = .v6 b) :
    prefixHosts p = 2 ^ min 20 (128 - p.bits) := by
  have hbits := hp.bits
  rw [hb] at hbits
  have hle : p.bits ≤ 128 := hbits
  unfold prefixHosts v6SpanCap
  rw [hb]
  dsimp only
  rw [if_neg (by omega)]
  split
  next h => rw [h]; rfl
  next =>
    split
    next h => rw [Nat.min_eq_left h, Nat.one_shiftLeft]
    next h => rw [Nat.min_eq_right (by omega), Nat.one_shiftLeft]

theorem whole_v6_iff {p : Prefix} (hp : p.Canon) {b : Vector UInt8 16} (hb : p.net = .v6 b) :
    p.Whole hp ↔ 108 ≤ p.bits := by
  unfold Prefix.Whole
  rw [usable_hosts, hosts_v6 hp hb, hp.size_eq, hb, Nat.pow_right_inj (Nat.le_refl 2)]
  change min 20 (128 - p.bits) = 128 - p.bits ↔ 108 ≤ p.bits
  omega

/-- What `merge_siblings` makes of two halves, the lower one first. -/
structure Merges {p q m : Prefix} (hp : p.Canon) (hq : q.Canon) (hm : m.Canon) : Prop where
  lo : hm.cell.lo = hp.cell.lo
  size : hm.cell.size = hp.cell.size + hq.cell.size
  next : hp.cell.lo + hp.cell.size = hq.cell.lo
  wholes : p.Whole hp ∧ q.Whole hq ∧ m.Whole hm

theorem Prefix.CanonV4.canon {p : Prefix} (hp : p.CanonV4) : p.Canon := by
  obtain ⟨a, ha⟩ := hp.net
  have halign := hp.aligned
  have hbits := hp.bits
  unfold Prefix.base Prefix.size at halign
  rw [ha] at halign
  refine ⟨?_, ?_, hp.count⟩
  · rw [ha]
    exact hbits
  · rw [ha]
    exact halign

theorem mergeSiblings_family {p q m : Prefix} (h : mergeSiblings p q = some m) : p.net.isV6 = q.net.isV6 := by
  unfold mergeSiblings at h
  split at h
  next => simp at h
  next =>
    split at h
    next ha hb => rw [ha, hb]; rfl
    next ha hb => rw [ha, hb]; rfl
    next => simp at h

theorem mergeSiblings_cell4 {p q m : Prefix} (hp : p.Canon) (hq : q.Canon) {a b : UInt32} (ha : p.net = .v4 a)
    (hb : q.net = .v4 b) (h : mergeSiblings p q = some m) : ∃ hm : m.Canon, Merges hp hq hm := by
  have hp4 := hp.canonV4 ha
  have hq4 := hq.canonV4 hb
  obtain ⟨hm4, hbase, hbits, hsame, hnext⟩ := mergeSiblings_v4 hp4 hq4 h
  obtain ⟨c, hc⟩ := hm4.net
  have hpb := hp4.bits
  have hplace (r : Prefix) {x : UInt32} (hx : r.net = .v4 x) : r.net.place = r.base := by
    unfold Prefix.base
    rw [hx]
    rfl
  refine ⟨hm4.canon, ?_, ?_, ?_, whole_v4 hp ha, whole_v4 hq hb, whole_v4 hm4.canon hc⟩
  · rw [Prefix.Canon.lo_eq, Prefix.Canon.lo_eq, hplace m hc, hplace p ha, hbase]
  · rw [Prefix.Canon.size_eq, Prefix.Canon.size_eq, Prefix.Canon.size_eq, hc, ha, hb]
    change 2 ^ (32 - m.bits) = 2 ^ (32 - p.bits) + 2 ^ (32 - q.bits)
    rw [← hsame, show 32 - m.bits = 32 - p.bits + 1 by omega, Nat.pow_succ]
    omega
  · rw [Prefix.Canon.lo_eq, Prefix.Canon.lo_eq, hplace p ha, hplace q hb, Prefix.Canon.size_eq, ha]
    exact hnext

/-- Two different blocks of one size in one block of twice the size are its halves. -/
theorem halves_of_div {x y k : Nat} (hy : 2 ^ k ∣ y) (hlt : x + 2 ^ k ≤ y)
    (hdiv : x / 2 ^ (k + 1) = y / 2 ^ (k + 1)) : x / 2 ^ (k + 1) * 2 ^ (k + 1) = x ∧ x + 2 ^ k = y := by
  have hpos : 0 < 2 ^ (k + 1) := Nat.pow_pos (by decide)
  have hdouble : 2 ^ (k + 1) = 2 ^ k + 2 ^ k := by
    rw [Nat.pow_succ]
    omega
  have hbase : 2 ^ k ∣ x / 2 ^ (k + 1) * 2 ^ (k + 1) :=
    Nat.dvd_trans (Nat.pow_dvd_pow 2 (Nat.le_succ k)) (Nat.dvd_mul_left _ _)
  have hle := Nat.div_mul_le_self x (2 ^ (k + 1))
  have hylt : y < x / 2 ^ (k + 1) * 2 ^ (k + 1) + 2 ^ (k + 1) := by
    rw [hdiv]
    exact Nat.lt_div_mul_add hpos
  have hend := Block.end_le hbase (Nat.pow_dvd_pow 2 (Nat.le_succ k)) hy hylt
  omega

theorem mergeSiblings_cell6 {p q m : Prefix} (hp : p.Canon) (hq : q.Canon) {x y : Vector UInt8 16}
    (hx : p.net = .v6 x) (hy : q.net = .v6 y) (hbehind : hp.cell.lo + hp.cell.size ≤ hq.cell.lo)
    (h : mergeSiblings p q = some m) : ∃ hm : m.Canon, Merges hp hq hm := by
  have hpb := hp.bits
  rw [hx] at hpb
  have hpb : p.bits ≤ 128 := hpb
  rw [hp.size_eq, hp.lo_eq, hq.lo_eq, hx, hy] at hbehind
  have hxy : v6Nat x + 2 ^ (128 - p.bits) ≤ v6Nat y := by
    have : 2 ^ 128 + v6Nat x + 2 ^ (128 - p.bits) ≤ 2 ^ 128 + v6Nat y := hbehind
    omega
  unfold mergeSiblings at h
  rw [hx, hy] at h
  dsimp only at h
  split at h
  next => simp at h
  next hcond =>
    push Not at hcond
    obtain ⟨hzero, hbits⟩ := hcond
    split at h
    next => simp at h
    next hspan =>
      split at h
      next => simp at h
      next hpar =>
        push Not at hpar
        obtain rfl := Option.some.inj h
        have hk : 128 - (p.bits - 1) = 128 - p.bits + 1 := by omega
        have hdy := hq.dvd_v6 hy
        rw [← hbits] at hdy
        have hdiv : v6Nat x / 2 ^ (128 - p.bits + 1) = v6Nat y / 2 ^ (128 - p.bits + 1) := by
          have hmask := congrArg v6Nat hpar.2
          rw [v6Nat_maskV6 x (by omega), v6Nat_maskV6 y (by omega), ← hbits, hk] at hmask
          exact Nat.eq_of_mul_eq_mul_right (Nat.pow_pos (by decide)) hmask
        obtain ⟨hbase, hnext⟩ := halves_of_div hdy hxy hdiv
        have hmask : v6Nat (maskV6 x (p.bits - 1)) = v6Nat x := by
          rw [v6Nat_maskV6 x (by omega), hk, hbase]
        have haligned : 2 ^ (128 - (p.bits - 1)) ∣ 2 ^ 128 + v6Nat (maskV6 x (p.bits - 1)) := by
          rw [hmask, hk]
          refine Nat.dvd_add (Nat.pow_dvd_pow 2 (by omega)) ?_
          rw [← hbase]
          exact Nat.dvd_mul_left _ _
        let m : Prefix := ⟨.v6 (maskV6 x (p.bits - 1)), p.bits - 1, 0⟩
        have hm : Prefix.Canon { m with count := prefixHosts m } := ⟨by change p.bits - 1 ≤ 128; omega, haligned, rfl⟩
        refine ⟨hm, ?_, ?_, ?_, (whole_v6_iff hp hx).mpr (by omega), (whole_v6_iff hq hy).mpr (by omega), ?_⟩
        · rw [hm.lo_eq, hp.lo_eq, hx]
          exact congrArg (2 ^ 128 + ·) hmask
        · rw [hm.size_eq, hp.size_eq, hq.size_eq, hx, hy]
          change 2 ^ (128 - (p.bits - 1)) = 2 ^ (128 - p.bits) + 2 ^ (128 - q.bits)
          rw [← hbits, hk, Nat.pow_succ]
          omega
        · rw [hp.lo_eq, hp.size_eq, hq.lo_eq, hx, hy]
          change 2 ^ 128 + v6Nat x + 2 ^ (128 - p.bits) = 2 ^ 128 + v6Nat y
          omega
        · refine (whole_v6_iff hm rfl).mpr ?_
          change 108 ≤ p.bits - 1
          omega

theorem mergeSiblings_canon {p q m : Prefix} (hp : p.Canon) (hq : q.Canon)
    (hbehind : hp.cell.lo + hp.cell.size ≤ hq.cell.lo) (h : mergeSiblings p q = some m) :
    ∃ hm : m.Canon, Merges hp hq hm := by
  have hfam := mergeSiblings_family h
  cases hpn : p.net with
  | v4 a =>
    cases hqn : q.net with
    | v4 b => exact mergeSiblings_cell4 hp hq hpn hqn h
    | v6 b =>
      rw [hpn, hqn] at hfam
      simp [Addr.isV6] at hfam
  | v6 a =>
    cases hqn : q.net with
    | v4 b =>
      rw [hpn, hqn] at hfam
      simp [Addr.isV6] at hfam
    | v6 b => exact mergeSiblings_cell6 hp hq hpn hqn hbehind h

section Add

variable {s s' : CidrSet} {p : Prefix}

theorem cidrSetAdd_iff_v6 {b : Vector UInt8 16} (hb : p.net = .v6 b) :
    cidrSetAdd s p = some s' ↔ p.Canon ∧ s.v.length < s.cap ∧ s' = { s with v := s.v ++ [p] } := by
  unfold cidrSetAdd
  constructor
  · intro h
    split at h
    next => simp at h
    next hcond =>
      rw [hb] at h
      dsimp only at h
      split at h
      next => simp at h
      next hmask =>
        push Not at hcond hmask
        obtain ⟨hroom, hcount, hhosts⟩ := hcond
        have hbits : p.bits ≤ 128 := by
          by_contra hgt
          unfold prefixHosts at hhosts
          rw [hb] at hhosts
          dsimp only at hhosts
          rw [if_pos (by omega)] at hhosts
          exact hcount hhosts
        have hdvd : 2 ^ (128 - p.bits) ∣ v6Nat b := by
          have hmasked := v6Nat_maskV6 b hbits
          rw [hmask] at hmasked
          exact ⟨_, hmasked.trans (Nat.mul_comm _ _)⟩
        refine ⟨⟨?_, ?_, hhosts⟩, hroom, (Option.some.inj h).symm⟩
        · rw [hb]
          exact hbits
        · rw [hb]
          exact Nat.dvd_add (Nat.pow_dvd_pow 2 (Nat.sub_le 128 p.bits)) hdvd
  · rintro ⟨hp, hroom, rfl⟩
    have hbits := hp.bits
    rw [hb] at hbits
    have hpos : 0 < prefixHosts p := by
      rw [hosts_v6 hp hb]
      exact Nat.pow_pos (by decide)
    have hcount := hp.count
    have hmask : maskV6 b p.bits = b := by
      apply v6Nat_inj
      rw [v6Nat_maskV6 b hbits]
      exact Nat.div_mul_cancel (hp.dvd_v6 hb)
    rw [if_neg (by omega), hb]
    dsimp only
    rw [if_neg (not_not.mpr hmask)]

/-- `qn_cidr_set_add` takes just the canonical prefixes, while there is room. -/
theorem cidrSetAdd_iff :
    cidrSetAdd s p = some s' ↔ p.Canon ∧ s.v.length < s.cap ∧ s' = { s with v := s.v ++ [p] } := by
  cases hnet : p.net with
  | v4 a =>
    rw [cidrSetAdd_iff_v4 hnet]
    exact and_congr_left fun _ => ⟨fun hp => hp.canon, fun hp => hp.canonV4 hnet⟩
  | v6 b => exact cidrSetAdd_iff_v6 hnet

theorem addAll_iff {ps : List Prefix} (hlen : s.v.length ≤ s.cap) : ps.foldlM cidrSetAdd s = some s' ↔
    (∀ p ∈ ps, p.Canon) ∧ s.v.length + ps.length ≤ s.cap ∧ s' = { s with v := s.v ++ ps } := by
  induction ps generalizing s with
  | nil =>
    simp only [List.foldlM_nil, List.append_nil, List.length_nil, Nat.add_zero]
    constructor
    · intro h
      exact ⟨by simp, hlen, (Option.some.inj h).symm⟩
    · rintro ⟨-, -, rfl⟩
      rfl
  | cons p ps ih =>
    rw [List.foldlM_cons, List.forall_mem_cons, List.length_cons]
    constructor
    · intro h
      obtain ⟨t, hadd, hrest⟩ := Option.bind_eq_some_iff.mp h
      obtain ⟨hp, hroom, rfl⟩ := cidrSetAdd_iff.mp hadd
      have hone : (s.v ++ [p]).length = s.v.length + 1 := by simp
      obtain ⟨hps, hcap, rfl⟩ := (ih (s := { s with v := s.v ++ [p] }) (hone ▸ hroom)).mp hrest
      rw [hone] at hcap
      exact ⟨⟨hp, hps⟩, by dsimp only at hcap; omega, by simp⟩
    · rintro ⟨⟨hp, hps⟩, hcap, rfl⟩
      have hone : (s.v ++ [p]).length = s.v.length + 1 := by simp
      have hroom : s.v.length + 1 ≤ s.cap := by omega
      rw [cidrSetAdd_iff.mpr ⟨hp, hroom, rfl⟩]
      refine (ih (s := { s with v := s.v ++ [p] }) (hone ▸ hroom)).mpr ⟨hps, ?_, by simp⟩
      rw [hone]
      dsimp only
      omega

end Add

end Qanat
