import Qanat.CidrSealed

namespace Qanat

section Canon

variable {p : Prefix} (hp : p.CanonV4)
include hp

theorem Prefix.CanonV4.lo_eq : p.lo = p.base := by
  obtain ⟨a, ha⟩ := hp.net
  unfold Prefix.lo Prefix.base
  rw [ha]
  rfl

theorem Prefix.CanonV4.span_eq : p.span = p.size := by
  obtain ⟨a, ha⟩ := hp.net
  unfold Prefix.span Prefix.size
  rw [ha]
  rfl

theorem Prefix.CanonV4.covers_iff {x : Nat} : p.Covers x ↔ p.lo ≤ x ∧ x < p.lo + p.span := by
  rw [hp.lo_eq, hp.span_eq]
  exact Iff.rfl

end Canon

/-- Normalisation of IPv4 prefixes leaves sorted disjoint IPv4 prefixes that cover the same addresses. -/
theorem normalizePrefixes_ok (skipEdges : Bool) {v : List Prefix} (hv : ∀ p ∈ v, p.CanonV4) :
    (∀ p ∈ normalizePrefixes skipEdges v, p.CanonV4) ∧
      (normalizePrefixes skipEdges v).Pairwise (fun p q => p.base + p.size ≤ q.base) ∧
      ∀ x, covered (normalizePrefixes skipEdges v) x ↔ covered v x := by
  have hcanon : ∀ p ∈ v, p.Canon := fun p hp => (hv p hp).canon
  obtain ⟨hout, hapart⟩ := normalizePrefixes_apart skipEdges hcanon
  obtain ⟨hholds, hsound⟩ := normalizePrefixes_spans skipEdges hcanon
  have hfour : ∀ p ∈ normalizePrefixes skipEdges v, p.CanonV4 := by
    intro p hp
    have hspan := p.span_pos
    obtain ⟨q, hq, hqx⟩ := hsound p hp p.lo (by omega)
    have hend := (hv q hq).end_le
    rw [(hv q hq).lo_eq, (hv q hq).span_eq] at hqx
    have hplace := place_lt p.net
    cases hnet : p.net with
    | v4 a => exact (hout p hp).canonV4 hnet
    | v6 b =>
      rw [hnet] at hplace
      simp only [Addr.isV6, if_true] at hplace
      unfold Prefix.lo at hqx
      rw [hnet] at hqx
      omega
  refine ⟨hfour, hapart.imp_of_mem ?_, fun x => ?_⟩
  · intro p q hp hq hpq
    rwa [(hfour p hp).lo_eq, (hfour p hp).span_eq, (hfour q hq).lo_eq] at hpq
  · constructor
    · rintro ⟨p, hp, hx⟩
      obtain ⟨q, hq, hqx⟩ := hsound p hp x ((hfour p hp).covers_iff.mp hx)
      exact ⟨q, hq, (hv q hq).covers_iff.mpr hqx⟩
    · rintro ⟨q, hq, hx⟩
      obtain ⟨p, hp, hpq⟩ := hholds q hq
      have hin := (contains_iff_within (hout p hp) (hcanon q hq)).mp hpq
      have hqx := (hv q hq).covers_iff.mp hx
      exact ⟨p, hp, (hfour p hp).covers_iff.mpr (by omega)⟩

/-- A sealed set of disjoint IPv4 prefixes with its cumulative sums. -/
structure CidrSet.SealedV4 (s : CidrSet) : Prop where
  canon : ∀ p ∈ s.v, p.CanonV4
  apart : s.v.Pairwise fun p q => p.base + p.size ≤ q.base
  sums : ∃ sums, s.cumsum = some sums ∧
    ∀ k < s.v.length, sums[k]? = some (Cumulative.upto (prefixUsable · s.skipEdges) s.v (k + 1))
  total : s.total = (s.v.map (prefixUsable · s.skipEdges)).sum
  total_le : s.total ≤ 2 ^ 32

theorem sum_size_le {v : List Prefix} (hv : ∀ p ∈ v, p.CanonV4)
    (hapart : v.Pairwise fun p q => p.base + p.size ≤ q.base) {low : Nat} (hlow : ∀ p ∈ v, low ≤ p.base)
    (hle : low ≤ 2 ^ 32) : low + (v.map Prefix.size).sum ≤ 2 ^ 32 := by
  induction v generalizing low with
  | nil => simpa using hle
  | cons p v ih =>
    have hmem : p ∈ p :: v := List.mem_cons_self
    obtain ⟨hfirst, hrest⟩ := List.pairwise_cons.mp hapart
    have := ih (fun q hq => hv q (List.mem_cons_of_mem _ hq)) hrest hfirst (hv p hmem).end_le
    have := hlow p hmem
    simp only [List.map_cons, List.sum_cons]
    omega

theorem CidrSet.SealedV4.sealed {s : CidrSet} (hs : s.SealedV4) : s.Sealed where
  canon := fun p hp => (hs.canon p hp).canon
  apart := hs.apart.imp_of_mem fun hp hq hpq => by
    rwa [(hs.canon _ hp).lo_eq, (hs.canon _ hp).span_eq, (hs.canon _ hq).lo_eq]
  sums := hs.sums
  total := hs.total

/-- `qn_cidr_set_seal` on canonical IPv4 prefixes. -/
theorem cidrSetSeal_sealed {s : CidrSet} (hv : ∀ p ∈ s.v, p.CanonV4) : (cidrSetSeal s).SealedV4 := by
  obtain ⟨hcanon, hapart, -⟩ := normalizePrefixes_ok s.skipEdges hv
  have hsize := sum_size_le hcanon hapart (fun p _ => Nat.zero_le p.base) (Nat.zero_le _)
  have husable : ((normalizePrefixes s.skipEdges s.v).map (prefixUsable · s.skipEdges)).sum ≤
      ((normalizePrefixes s.skipEdges s.v).map Prefix.size).sum := by
    apply List.sum_le_sum
    intro p hp
    have := usable_v4 (hcanon p hp) s.skipEdges
    omega
  have hsealed := cidrSetSeal_of_fit (fun p hp => (hv p hp).canon) (by omega)
  have htotal := hsealed.total
  rw [seal_v, seal_skipEdges] at htotal
  refine ⟨?_, ?_, hsealed.sums, hsealed.total, by omega⟩
  · rwa [seal_v]
  · rwa [seal_v]

theorem mem_prefixAddrs {p : Prefix} (hp : p.CanonV4) {skipEdges : Bool} {x : Addr} :
    x ∈ prefixOwn skipEdges p ↔ ∃ a : UInt32, x = .v4 a ∧ p.base + edgeOffset skipEdges p ≤ a.toNat ∧
      a.toNat + edgeOffset skipEdges p < p.base + p.size := by
  have husable := usable_v4 hp skipEdges
  have hend := hp.end_le
  rw [mem_prefixOwn hp.canon]
  unfold Enumerates
  rw [hp.lo_eq]
  constructor
  · rintro ⟨hlo, hhi⟩
    cases x with
    | v4 a => exact ⟨a, rfl, hlo, by change a.toNat < _ at hhi; omega⟩
    | v6 b =>
      have hplace := place_lt (.v6 b)
      simp only [Addr.isV6, if_true] at hplace
      omega
  · rintro ⟨a, rfl, hlo, hhi⟩
    exact ⟨hlo, by change a.toNat < _; omega⟩

/-- The addresses of a sealed IPv4 set: those its prefixes cover, without the two edges of a prefix
where the set skips them. -/
def CidrSet.Contains (s : CidrSet) (x : Addr) : Prop :=
  ∃ a : UInt32, x = .v4 a ∧ ∃ p ∈ s.v,
    p.base + edgeOffset s.skipEdges p ≤ a.toNat ∧ a.toNat + edgeOffset s.skipEdges p < p.base + p.size

theorem CidrSet.SealedV4.mem_addrs {s : CidrSet} (hs : s.SealedV4) {x : Addr} :
    x ∈ s.addrs ↔ s.Contains x := by
  rw [CidrSet.mem_addrs]
  constructor
  · rintro ⟨p, hp, hx⟩
    obtain ⟨a, rfl, ha⟩ := (mem_prefixAddrs (hs.canon p hp)).mp hx
    exact ⟨a, rfl, p, hp, ha⟩
  · rintro ⟨a, rfl, p, hp, ha⟩
    exact ⟨p, hp, (mem_prefixAddrs (hs.canon p hp)).mpr ⟨a, rfl, ha⟩⟩

/-- A set sealed with its edges kept contains exactly the addresses its prefixes covered before. -/
theorem cidrSetSeal_contains {s : CidrSet} (hv : ∀ p ∈ s.v, p.CanonV4) (hedges : s.skipEdges = false)
    (x : Addr) : (cidrSetSeal s).Contains x ↔ ∃ a : UInt32, x = .v4 a ∧ covered s.v a.toNat := by
  unfold CidrSet.Contains
  rw [seal_skipEdges, hedges, seal_v]
  simp only [edgeOffset, Bool.false_and, Bool.false_eq_true, if_false, Nat.add_zero]
  simp only [← (normalizePrefixes_ok s.skipEdges hv).2.2]
  rfl

end Qanat
