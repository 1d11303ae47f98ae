import Qanat.CidrNarrow

namespace Qanat

/-- The usable addresses of a prefix: all but the first and the last of an IPv4 network whose edges are skipped, and
the first `2 ^ 20` of an IPv6 network. -/
def UsableIn (skipEdges : Bool) (p : Prefix) (x : Addr) : Prop :=
  p.lo ≤ x.place ∧ x.place < p.lo + p.span ∧
    if p.net.isV6 then x.place < p.lo + v6SpanCap
    else skipEdges = true → p.bits < 31 → x.place ≠ p.lo ∧ x.place + 1 ≠ p.lo + p.span

section Usable

variable {p : Prefix} (hp : p.Canon) (skipEdges : Bool)
include hp

theorem usableIn_iff_v4 {a : UInt32} (ha : p.net = .v4 a) (x : Addr) :
    UsableIn skipEdges p x ↔ Enumerates skipEdges p x.place := by
  have huse : prefixUsable p skipEdges + 2 * edgeOffset skipEdges p = p.span := by
    rw [usable_v4 (hp.canonV4 ha)]
    unfold Prefix.size Prefix.span
    rw [ha]
    rfl
  have hedge : edgeOffset skipEdges p = if skipEdges = true ∧ p.bits < 31 then 1 else 0 := by
    unfold edgeOffset prefixHasEdges
    rw [ha]
    simp
  unfold UsableIn Enumerates
  rw [ha, show (Addr.v4 a).isV6 = false from rfl, if_neg Bool.false_ne_true]
  by_cases h : skipEdges = true ∧ p.bits < 31
  · rw [hedge, if_pos h] at huse
    rw [hedge, if_pos h]
    constructor
    · rintro ⟨h₁, h₂, h₃⟩
      have := h₃ h.1 h.2
      omega
    · rintro ⟨h₁, h₂⟩
      refine ⟨by omega, by omega, fun _ _ => by omega⟩
  · rw [hedge, if_neg h] at huse
    rw [hedge, if_neg h]
    constructor
    · rintro ⟨h₁, h₂, -⟩
      omega
    · rintro ⟨h₁, h₂⟩
      exact ⟨by omega, by omega, fun hs hb => absurd ⟨hs, hb⟩ h⟩

theorem usableIn_iff_v6 {b : Vector UInt8 16} (hb : p.net = .v6 b) (x : Addr) :
    UsableIn skipEdges p x ↔ Enumerates skipEdges p x.place := by
  have hedge : edgeOffset skipEdges p = 0 := by
    unfold edgeOffset prefixHasEdges
    rw [hb]
    simp
  have huse : prefixUsable p skipEdges = 2 ^ min 20 (128 - p.bits) := by
    rw [← hosts_v6 hp hb]
    unfold prefixUsable prefixHasEdges
    rw [hb]
    simp
  have hspan : p.span = 2 ^ (128 - p.bits) := by
    unfold Prefix.span
    rw [hb]
    rfl
  have hcap : v6SpanCap = 2 ^ 20 := by decide
  unfold UsableIn Enumerates
  rw [hb, show (Addr.v6 b).isV6 = true from rfl, if_pos rfl, hedge, huse, hspan, hcap]
  rcases Nat.le_total 20 (128 - p.bits) with h | h
  · have hle : 2 ^ 20 ≤ 2 ^ (128 - p.bits) := Nat.pow_le_pow_right (by decide) h
    rw [Nat.min_eq_left h]
    omega
  · have hle : 2 ^ (128 - p.bits) ≤ 2 ^ 20 := Nat.pow_le_pow_right (by decide) h
    rw [Nat.min_eq_right h]
    omega

theorem usableIn_iff (x : Addr) : UsableIn skipEdges p x ↔ Enumerates skipEdges p x.place := by
  cases hnet : p.net with
  | v4 a => exact usableIn_iff_v4 hp skipEdges hnet x
  | v6 b => exact usableIn_iff_v6 hp skipEdges hnet x

end Usable

section Nth

variable {s : CidrSet} (hs : s.Sealed)
include hs

/-- An index is mapped into the prefix that owns it. -/
theorem CidrSet.Sealed.nth_owner {idx : Nat} {x : Addr} (hx : cidrSetNth s idx = some x) :
    ∃ k p, s.v[k]? = some p ∧ Cumulative.upto (prefixUsable · s.skipEdges) s.v k ≤ idx ∧
      idx < Cumulative.upto (prefixUsable · s.skipEdges) s.v k + prefixUsable p s.skipEdges ∧
      UsableIn s.skipEdges p x := by
  have hidx : idx < s.total := (hs.nth_isSome idx).mp (by rw [hx]; rfl)
  rw [hs.total] at hidx
  obtain ⟨k, p, hp, hle, hlt⟩ := Cumulative.exists_owner (prefixUsable · s.skipEdges) hidx
  have hown : idx - Cumulative.upto (prefixUsable · s.skipEdges) s.v k < prefixUsable p s.skipEdges := by omega
  have hflat := Cumulative.getElem?_flatMap (prefixOwn s.skipEdges) hp
    (j := idx - Cumulative.upto (prefixUsable · s.skipEdges) s.v k) (by simpa [prefixOwn] using hown)
  have hlength : (fun p => (prefixOwn s.skipEdges p).length) = (prefixUsable · s.skipEdges) := by
    funext p
    simp [prefixOwn]
  rw [hlength, Nat.add_sub_cancel' hle] at hflat
  have hmem : x ∈ prefixOwn s.skipEdges p := by
    rw [hs.nth_eq] at hx
    exact List.mem_of_getElem? (hflat.symm.trans hx)
  have hcanon := hs.canon p (List.mem_of_getElem? hp)
  refine ⟨k, p, hp, hle, hlt, ?_⟩
  exact (usableIn_iff hcanon s.skipEdges x).mpr ((mem_prefixOwn hcanon s.skipEdges).mp hmem)

theorem CidrSet.Sealed.nth_hits {p : Prefix} (hp : p ∈ s.v) {x : Addr} (hx : UsableIn s.skipEdges p x) :
    ∃ idx < s.total, cidrSetNth s idx = some x := by
  have hcanon := hs.canon p hp
  have hmem : x ∈ s.addrs :=
    List.mem_flatMap.mpr ⟨p, hp, (mem_prefixOwn hcanon s.skipEdges).mpr ((usableIn_iff hcanon s.skipEdges x).mp hx)⟩
  obtain ⟨idx, hget⟩ := List.mem_iff_getElem?.mp hmem
  refine ⟨idx, ?_, (hs.nth_eq idx).trans hget⟩
  rw [← hs.nth_isSome, hs.nth_eq, hget]
  rfl

end Nth

/-- `qn_cidr_set_nth` counts the usable addresses of a sealed set in order. -/
theorem cidrSetNth_order_iso {ps : List Prefix} {cap : Nat} (hcap : cap < 2 ^ 32) {skipEdges : Bool} {s : CidrSet}
    (h : ps.foldlM cidrSetAdd (cidrSetInit cap skipEdges) = some s) :
    (∀ idx, (cidrSetNth (cidrSetSeal s) idx).isSome ↔ idx < (cidrSetSeal s).total) ∧
    (∀ i j x y, cidrSetNth (cidrSetSeal s) i = some x → cidrSetNth (cidrSetSeal s) j = some y → i < j →
      x.place < y.place) ∧
    (∀ idx x, cidrSetNth (cidrSetSeal s) idx = some x →
      ∃ k p, (cidrSetSeal s).v[k]? = some p ∧
        Cumulative.upto (prefixUsable · skipEdges) (cidrSetSeal s).v k ≤ idx ∧
        idx < Cumulative.upto (prefixUsable · skipEdges) (cidrSetSeal s).v k + prefixUsable p skipEdges ∧
        UsableIn skipEdges p x) ∧
    ∀ p ∈ (cidrSetSeal s).v, ∀ x, UsableIn skipEdges p x →
      ∃ idx < (cidrSetSeal s).total, cidrSetNth (cidrSetSeal s) idx = some x := by
  obtain ⟨hcanon, hroom, heq⟩ := (addAll_iff (s := cidrSetInit cap skipEdges) (Nat.zero_le _)).mp h
  have hv : s.v = ps := by simp [heq, cidrSetInit]
  have hlen : ps.length ≤ cap := by simpa [cidrSetInit] using hroom
  have hs := cidrSetSeal_ok (hv ▸ hcanon) (show s.v.length < 2 ^ 32 by rw [hv]; omega)
  have hskip : (cidrSetSeal s).skipEdges = skipEdges := by rw [seal_skipEdges, heq, cidrSetInit]
  rw [← hskip]
  exact ⟨hs.nth_isSome, fun i j x y => hs.nth_lt, fun idx x => hs.nth_owner, fun p hp x => hs.nth_hits hp⟩

/-- `255.255.255.252/30`. -/
def topNet : Prefix :=
  ⟨.v4 0xFFFFFFFC, 30, 4⟩

/-- `1.1.1.0/29`. -/
def lowNet : Prefix :=
  ⟨.v4 0x01010100, 29, 8⟩

theorem seal_topNet : cidrSetSeal ⟨[topNet, lowNet], 2, none, 0, true⟩ =
    ⟨[lowNet, topNet], 2, some [6, 8], 8, true⟩ := by
  have hnorm : normalizePrefixes true [topNet, lowNet] = [lowNet, topNet] := by
    rw [normalizePrefixes, mergeSort_pair]
    decide
  simp only [cidrSetSeal, hnorm]
  rfl

/-- The lookup goes over from the last host of one prefix to the first host of the next. -/
theorem cidrSetNth_order_iso_topNet :
    ∃ s, [topNet, lowNet].foldlM cidrSetAdd (cidrSetInit 2 true) = some s ∧ (cidrSetSeal s).total = 8 ∧
      cidrSetNth (cidrSetSeal s) 5 = some (.v4 0x01010106) ∧ cidrSetNth (cidrSetSeal s) 6 = some (.v4 0xFFFFFFFD) ∧
      ∀ p ∈ (cidrSetSeal s).v, ∀ x, UsableIn true p x →
        ∃ idx < (cidrSetSeal s).total, cidrSetNth (cidrSetSeal s) idx = some x := by
  have hadd : [topNet, lowNet].foldlM cidrSetAdd (cidrSetInit 2 true) =
      some ⟨[topNet, lowNet], 2, none, 0, true⟩ := rfl
  refine ⟨_, hadd, ?_, ?_, ?_, (cidrSetNth_order_iso (by decide) hadd).2.2.2⟩
  · rw [seal_topNet]
  · rw [seal_topNet]
    decide
  · rw [seal_topNet]
    decide

end Qanat
