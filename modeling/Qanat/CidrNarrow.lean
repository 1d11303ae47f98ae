import Qanat.CidrReduced
import Mathlib.Data.Finset.Max

namespace Qanat

/-- The addresses that `qn_cidr_set_nth` gives for the indices of a set. -/
def CidrSet.Enumerated (s : CidrSet) (x : Addr) : Prop :=
  ∃ idx < s.total, cidrSetNth s idx = some x

theorem seal_enumerated {s : CidrSet} (hv : ∀ p ∈ s.v, p.Canon) (hlen : s.v.length < 2 ^ 32) (x : Addr) :
    (cidrSetSeal s).Enumerated x ↔ ∃ p ∈ s.v, Outermost s.v p ∧ x ∈ prefixOwn s.skipEdges p := by
  have hs := cidrSetSeal_ok hv hlen
  obtain ⟨hcanon, henum⟩ := normalizePrefixes_kept s.skipEdges hv
  have hmem : (cidrSetSeal s).Enumerated x ↔ x ∈ (cidrSetSeal s).addrs := by
    unfold CidrSet.Enumerated
    rw [List.mem_iff_getElem?]
    constructor
    · rintro ⟨idx, -, hx⟩
      exact ⟨idx, (hs.nth_eq idx).symm.trans hx⟩
    · rintro ⟨idx, hx⟩
      rw [← hs.nth_eq] at hx
      exact ⟨idx, (hs.nth_isSome idx).mp (by rw [hx]; rfl), hx⟩
  rw [hmem, CidrSet.mem_addrs, seal_v, seal_skipEdges]
  have hplaces : (∃ r ∈ normalizePrefixes s.skipEdges s.v, x ∈ prefixOwn s.skipEdges r) ↔
      ∃ r ∈ normalizePrefixes s.skipEdges s.v, Enumerates s.skipEdges r x.place :=
    exists_congr fun r => and_congr_right fun hr => mem_prefixOwn (hcanon r hr) s.skipEdges
  rw [hplaces, henum]
  exact exists_congr fun p => and_congr_right fun hp =>
    and_congr_right fun _ => (mem_prefixOwn (hv p hp) s.skipEdges).symm

/-- Every prefix lies in an outermost one. -/
theorem exists_outermost {v : List Prefix} (hv : ∀ p ∈ v, p.Canon) {q : Prefix} (hq : q ∈ v) :
    ∃ p ∈ v, Outermost v p ∧ prefixContains p q = true := by
  obtain ⟨p, hp, hmax⟩ := ((v.filter (prefixContains · q)).toFinset).exists_max_image Prefix.span
    ⟨q, by simpa using ⟨hq, contains_self (hv q hq)⟩⟩
  simp only [List.mem_toFinset, List.mem_filter] at hp hmax
  refine ⟨p, hp.1, ?_, hp.2⟩
  intro t ht htp
  have htq := contains_trans (hv t ht) (hv p hp.1) (hv q hq) htp hp.2
  have hspan := hmax t ⟨ht, htq⟩
  have hin := (contains_iff_within (hv t ht) (hv p hp.1)).mp htp
  rw [contains_iff_within (hv p hp.1) (hv t ht)]
  omega

/-- That a prefix enumerates all that one inside it does: no host at an edge that is skipped, and no IPv6 block
behind the span that is enumerated. -/
def Spares (skipEdges : Bool) (p q : Prefix) : Prop :=
  if p.net.isV6 then q.lo < p.lo + v6SpanCap
  else ¬ (skipEdges = true ∧ p.bits < 31 ∧ 31 ≤ q.bits ∧ (q.lo = p.lo ∨ q.lo + q.span = p.lo + p.span))

section Spares

variable {skipEdges : Bool} {p q : Prefix} (hp : p.Canon) (hq : q.Canon)
include hp hq

theorem spares_iff_v6 {x y : Vector UInt8 16} (hx : p.net = .v6 x) (hy : q.net = .v6 y)
    (h : prefixContains p q = true) :
    q.lo < p.lo + v6SpanCap ↔ ∀ x, Enumerates skipEdges q x → Enumerates skipEdges p x := by
  have hedge (r : Prefix) {b : Vector UInt8 16} (hr : r.net = .v6 b) : edgeOffset skipEdges r = 0 := by
    unfold edgeOffset prefixHasEdges
    rw [hr]
    simp
  have huse (r : Prefix) (hc : r.Canon) {b : Vector UInt8 16} (hr : r.net = .v6 b) :
      prefixUsable r skipEdges = 2 ^ min 20 (128 - r.bits) := by
    rw [← hosts_v6 hc hr]
    unfold prefixUsable prefixHasEdges
    rw [hr]
    simp
  have hspan (r : Prefix) {b : Vector UInt8 16} (hr : r.net = .v6 b) : r.span = 2 ^ (128 - r.bits) := by
    unfold Prefix.span
    rw [hr]
    rfl
  have hdvd (r : Prefix) (hc : r.Canon) {b : Vector UInt8 16} (hr : r.net = .v6 b) : 2 ^ (128 - r.bits) ∣ r.lo := by
    have := hc.aligned
    rw [hr] at this
    unfold Prefix.lo
    rw [hr]
    exact this
  have hin := (contains_iff_within hp hq).mp h
  have hbits : p.bits ≤ q.bits := ((contains_v6_iff hp hx hy).mp h).1
  have hcap : v6SpanCap = 2 ^ 20 := by decide
  unfold Enumerates
  rw [hedge p hx, hedge q hy, huse p hp hx, huse q hq hy, hcap]
  rw [hspan p hx, hspan q hy] at hin
  have hpos : 0 < 2 ^ min 20 (128 - q.bits) := Nat.pow_pos (by decide)
  constructor
  · intro hlt y hy'
    rcases Nat.le_total (128 - p.bits) 20 with hk | hk
    · have hpw : 2 ^ min 20 (128 - p.bits) = 2 ^ (128 - p.bits) := by rw [Nat.min_eq_right hk]
      have hqw : 2 ^ min 20 (128 - q.bits) ≤ 2 ^ (128 - q.bits) :=
        Nat.pow_le_pow_right (by decide) (Nat.min_le_right _ _)
      omega
    · have hdp : 2 ^ min 20 (128 - q.bits) ∣ p.lo := Nat.dvd_trans (Nat.pow_dvd_pow 2 (by omega)) (hdvd p hp hx)
      have hdq : 2 ^ min 20 (128 - q.bits) ∣ q.lo := Nat.dvd_trans (Nat.pow_dvd_pow 2 (by omega)) (hdvd q hq hy)
      have hend := Block.end_le hdp (Nat.pow_dvd_pow 2 (Nat.min_le_left 20 _)) hdq hlt
      rw [Nat.min_eq_left hk]
      omega
  · intro hall
    have hfirst := (hall q.lo (by omega)).2
    have hle : 2 ^ min 20 (128 - p.bits) ≤ 2 ^ 20 := Nat.pow_le_pow_right (by decide) (Nat.min_le_left _ _)
    omega

theorem spares_iff_v4 {a b : UInt32} (ha : p.net = .v4 a) (hb : q.net = .v4 b) (h : prefixContains p q = true) :
    ¬ (skipEdges = true ∧ p.bits < 31 ∧ 31 ≤ q.bits ∧ (q.lo = p.lo ∨ q.lo + q.span = p.lo + p.span)) ↔
      ∀ x, Enumerates skipEdges q x → Enumerates skipEdges p x := by
  have hin := (contains_iff_within hp hq).mp h
  have huse (r : Prefix) (hc : r.Canon) {c : UInt32} (hr : r.net = .v4 c) :
      prefixUsable r skipEdges + 2 * edgeOffset skipEdges r = r.span := by
    rw [usable_v4 (hc.canonV4 hr)]
    unfold Prefix.size Prefix.span
    rw [hr]
    rfl
  have hedge (r : Prefix) {c : UInt32} (hr : r.net = .v4 c) :
      edgeOffset skipEdges r = if skipEdges = true ∧ r.bits < 31 then 1 else 0 := by
    unfold edgeOffset prefixHasEdges
    rw [hr]
    simp
  have hup := huse p hp ha
  have huq := huse q hq hb
  have hpos := q.span_pos
  rw [hedge p ha] at hup
  rw [hedge q hb] at huq
  unfold Enumerates
  rw [hedge p ha, hedge q hb]
  by_cases hpe : skipEdges = true ∧ p.bits < 31
  · by_cases hqe : skipEdges = true ∧ q.bits < 31
    · rw [if_pos hpe] at hup ⊢
      rw [if_pos hqe] at huq ⊢
      constructor
      · intro _ x hx
        omega
      · intro _ hno
        omega
    · rw [if_pos hpe] at hup ⊢
      rw [if_neg hqe] at huq ⊢
      constructor
      · intro hno x hx
        have hfar : ¬ (q.lo = p.lo ∨ q.lo + q.span = p.lo + p.span) :=
          fun hat => hno ⟨hpe.1, hpe.2, Nat.le_of_not_lt fun hlt => hqe ⟨hpe.1, hlt⟩, hat⟩
        omega
      · intro hall hno
        have h₁ := hall q.lo (by omega)
        have h₂ := hall (q.lo + q.span - 1) (by omega)
        omega
  · rw [if_neg hpe] at hup ⊢
    constructor
    · intro _ x hx
      split at hx
      next hqe =>
        rw [if_pos hqe] at huq
        omega
      next hqe =>
        rw [if_neg hqe] at huq
        omega
    · exact fun _ hno => hpe ⟨hno.1, hno.2.1⟩

theorem spares_iff (h : prefixContains p q = true) :
    Spares skipEdges p q ↔ ∀ x, Enumerates skipEdges q x → Enumerates skipEdges p x := by
  have hin := (contains_iff_within hp hq).mp h
  have hpos := q.span_pos
  have hfam : p.net.isV6 = q.net.isV6 :=
    sameFamily_of_meet hp hq (show p.lo ≤ q.lo ∧ q.lo < p.lo + p.span by omega)
      (show q.lo ≤ q.lo ∧ q.lo < q.lo + q.span by omega)
  unfold Spares
  cases hpn : p.net with
  | v4 a =>
    cases hqn : q.net with
    | v4 b =>
      simp only [Addr.isV6, Bool.false_eq_true, if_false]
      exact spares_iff_v4 hp hq hpn hqn h
    | v6 b =>
      rw [hpn, hqn] at hfam
      simp [Addr.isV6] at hfam
  | v6 a =>
    cases hqn : q.net with
    | v4 b =>
      rw [hpn, hqn] at hfam
      simp [Addr.isV6] at hfam
    | v6 b =>
      simp only [Addr.isV6, if_true]
      exact spares_iff_v6 hp hq hpn hqn h

end Spares

/-- Two outermost prefixes with an address in common are one. -/
theorem outermost_unique {v : List Prefix} (hv : ∀ p ∈ v, p.Canon) {p q : Prefix} (hp : p ∈ v) (hq : q ∈ v)
    (hpo : Outermost v p) (hqo : Outermost v q) {x : Nat} (hpx : p.lo ≤ x ∧ x < p.lo + p.span)
    (hqx : q.lo ≤ x ∧ x < q.lo + q.span) : p = q := by
  rcases contains_or_contains (hv p hp) (hv q hq) hpx hqx with h | h
  · exact contains_antisymm (hv p hp) (hv q hq) h (hqo p hp h)
  · exact contains_antisymm (hv p hp) (hv q hq) (hpo q hq h) h

/-- A set enumerates after sealing what its prefixes enumerate on their own. -/
def SealKeeps (s : CidrSet) : Prop :=
  ∀ x, (cidrSetSeal s).Enumerated x ↔ ∃ p ∈ s.v, x ∈ prefixOwn s.skipEdges p

theorem sealKeeps_iff {s : CidrSet} (hps : ∀ p ∈ s.v, p.Canon) (hlen : s.v.length < 2 ^ 32) :
    SealKeeps s ↔
      ∀ p ∈ s.v, Outermost s.v p → ∀ q ∈ s.v, prefixContains p q = true → Spares s.skipEdges p q := by
  constructor
  · intro hall p hp hout q hq hpq
    rw [spares_iff (hps p hp) (hps q hq) hpq]
    intro x hx
    have hk : x - (q.lo + edgeOffset s.skipEdges q) < prefixUsable q s.skipEdges := by
      obtain ⟨h₁, h₂⟩ := hx
      omega
    have hplace := place_prefixNth (hps q hq) s.skipEdges hk
    have hxe : q.lo + edgeOffset s.skipEdges q + (x - (q.lo + edgeOffset s.skipEdges q)) = x := by
      obtain ⟨h₁, h₂⟩ := hx
      omega
    rw [hxe] at hplace
    have hown : prefixNth s.skipEdges q (x - (q.lo + edgeOffset s.skipEdges q)) ∈ prefixOwn s.skipEdges q :=
      List.mem_map.mpr ⟨_, List.mem_range.mpr hk, rfl⟩
    obtain ⟨t, ht, hto, hxt⟩ := (seal_enumerated hps hlen _).mp ((hall _).mpr ⟨q, hq, hown⟩)
    rw [mem_prefixOwn (hps t ht), hplace] at hxt
    have hin := (contains_iff_within (hps p hp) (hps q hq)).mp hpq
    have hqx := enumerates_mem (hps q hq) s.skipEdges hx
    have heq := outermost_unique hps hp ht hout hto (x := x) (by omega) (enumerates_mem (hps t ht) s.skipEdges hxt)
    rw [heq]
    exact hxt
  · intro hall x
    rw [seal_enumerated hps hlen]
    constructor
    · rintro ⟨p, hp, -, hx⟩
      exact ⟨p, hp, hx⟩
    · rintro ⟨q, hq, hx⟩
      obtain ⟨p, hp, hout, hpq⟩ := exists_outermost hps hq
      have hsub := (spares_iff (hps p hp) (hps q hq) hpq).mp (hall p hp hout q hq hpq)
      rw [mem_prefixOwn (hps q hq)] at hx
      exact ⟨p, hp, hout, (mem_prefixOwn (hps p hp) s.skipEdges).mpr (hsub _ hx)⟩

/-- Sealing narrows what is enumerated exactly where an outermost prefix does not spare one inside it. -/
theorem seal_keeps_iff {ps : List Prefix} (hps : ∀ p ∈ ps, p.Canon) {cap : Nat} (hcap : ps.length ≤ cap)
    (hcap32 : cap < 2 ^ 32) (skipEdges : Bool) :
    ∃ s, ps.foldlM cidrSetAdd (cidrSetInit cap skipEdges) = some s ∧ s.v = ps ∧
      (SealKeeps s ↔
        ∀ p ∈ ps, Outermost ps p → ∀ q ∈ ps, prefixContains p q = true → Spares skipEdges p q) := by
  have hadded := (addAll_iff (s := cidrSetInit cap skipEdges) (Nat.zero_le _)).mpr
    ⟨hps, by simpa [cidrSetInit] using hcap, rfl⟩
  refine ⟨_, hadded, by simp [cidrSetInit], ?_⟩
  exact sealKeeps_iff (s := ⟨[] ++ ps, cap, none, 0, skipEdges⟩) (by simpa using hps) (by simpa using (by omega))

def v6Of (a b c d e f : UInt8) : Vector UInt8 16 :=
  #v[a, b, c, d, e, f, 0, 0, 0, 0, 0, 0, 0, 0, 0, 0]

/-- `2001:db8::/32`. -/
def docNet : Prefix :=
  ⟨.v6 (v6Of 0x20 0x01 0x0D 0xB8 0 0), 32, 2 ^ 20⟩

/-- `2001:db8:1::/48`. -/
def docSite : Prefix :=
  ⟨.v6 (v6Of 0x20 0x01 0x0D 0xB8 0 1), 48, 2 ^ 20⟩

theorem docNet_canon : docNet.Canon :=
  ⟨by decide, by decide, by decide⟩

theorem docSite_canon : docSite.Canon :=
  ⟨by decide, by decide, by decide⟩

theorem doc_canon : ∀ p ∈ [docNet, docSite], p.Canon := by
  intro p hp
  simp only [List.mem_cons, List.not_mem_nil, or_false] at hp
  rcases hp with rfl | rfl
  · exact docNet_canon
  · exact docSite_canon

/-- A site inside an IPv6 network is not enumerated any more once the network is there too. -/
theorem seal_narrows : ∃ s, [docNet, docSite].foldlM cidrSetAdd (cidrSetInit 2 false) = some s ∧ ¬ SealKeeps s := by
  have hadded := (addAll_iff (s := cidrSetInit 2 false) (Nat.zero_le _)).mpr ⟨doc_canon, by decide, rfl⟩
  refine ⟨_, hadded, ?_⟩
  intro hkeeps
  have hiff := sealKeeps_iff (s := ⟨[docNet, docSite], 2, none, 0, false⟩) doc_canon (by decide)
  have hspares := hiff.mp hkeeps docNet (by simp) ?_ docSite (by simp) (by decide)
  · exact absurd hspares (by unfold Spares; decide)
  · unfold Outermost
    decide

/-- `2001:db8::/112`, all of it among the addresses of `docNet` that are enumerated. -/
def docHead : Prefix :=
  ⟨.v6 (v6Of 0x20 0x01 0x0D 0xB8 0 0), 112, 2 ^ 16⟩

def homeNet : Prefix :=
  ⟨.v4 0x0A000000, 24, 256⟩

/-- `10.0.0.64/26`, away from the edges of `homeNet`. -/
def homeQuarter : Prefix :=
  ⟨.v4 0x0A000040, 26, 64⟩

theorem spared_canon : ∀ p ∈ [docHead, homeQuarter, docNet, homeNet], p.Canon := by
  intro p hp
  simp only [List.mem_cons, List.not_mem_nil, or_false] at hp
  rcases hp with rfl | rfl | rfl | rfl
  · exact ⟨by decide, by decide, by decide⟩
  · exact ⟨by decide, by decide, by decide⟩
  · exact docNet_canon
  · exact ⟨by decide, by decide, by decide⟩

theorem seal_keeps_sample : ∃ s,
    [docHead, homeQuarter, docNet, homeNet].foldlM cidrSetAdd (cidrSetInit 4 true) = some s ∧
    prefixContains docNet docHead = true ∧ prefixContains homeNet homeQuarter = true ∧ SealKeeps s := by
  obtain ⟨s, hs, -, hiff⟩ := seal_keeps_iff spared_canon (show 4 ≤ 4 by decide) (by decide) true
  refine ⟨s, hs, by decide, by decide, hiff.mpr ?_⟩
  unfold Outermost Spares
  decide

end Qanat
