import Qanat.CidrCell

namespace Qanat

open Dyadic

def Prefix.lo (p : Prefix) : Nat :=
  p.net.place

def Prefix.span (p : Prefix) : Nat :=
  2 ^ (p.net.width - p.bits)

/-- The places of the addresses that a prefix enumerates on its own. -/
def Enumerates (skipEdges : Bool) (p : Prefix) (x : Nat) : Prop :=
  p.lo + edgeOffset skipEdges p ≤ x ∧ x < p.lo + edgeOffset skipEdges p + prefixUsable p skipEdges

/-- The addresses that a prefix enumerates on its own. -/
def prefixOwn (skipEdges : Bool) (p : Prefix) : List Addr :=
  (List.range (prefixUsable p skipEdges)).map (prefixNth skipEdges p)

theorem Prefix.span_pos (p : Prefix) : 0 < p.span :=
  Nat.pow_pos (by decide)

section Own

variable {p : Prefix} (hp : p.Canon) (skipEdges : Bool)
include hp

theorem usable_le_span : 2 * edgeOffset skipEdges p + prefixUsable p skipEdges ≤ p.span := by
  unfold Prefix.span
  cases hnet : p.net with
  | v4 a =>
    have h4 := hp.canonV4 hnet
    have := usable_v4 h4 skipEdges
    change _ ≤ 2 ^ (32 - p.bits)
    unfold Prefix.size at this
    omega
  | v6 b =>
    have hedge : edgeOffset skipEdges p = 0 := by
      unfold edgeOffset prefixHasEdges
      rw [hnet]
      simp
    have huse : prefixUsable p skipEdges = prefixHosts p := by
      unfold prefixUsable prefixHasEdges
      rw [hnet]
      simp
    rw [hedge, huse, hosts_v6 hp hnet]
    have : 2 ^ min 20 (128 - p.bits) ≤ 2 ^ (128 - p.bits) := Nat.pow_le_pow_right (by decide) (Nat.min_le_right _ _)
    change _ ≤ 2 ^ (128 - p.bits)
    omega

theorem place_prefixNth {k : Nat} (hk : k < prefixUsable p skipEdges) :
    (prefixNth skipEdges p k).place = p.lo + edgeOffset skipEdges p + k := by
  cases hnet : p.net with
  | v4 a =>
    obtain ⟨b, hb, hnat⟩ := prefixNth_v4 (hp.canonV4 hnet) hk
    rw [hb]
    change b.toNat = p.net.place + _ + _
    unfold Prefix.base at hnat
    rw [hnet] at hnat ⊢
    change b.toNat = a.toNat + _ + _
    dsimp only at hnat
    omega
  | v6 b =>
    have hend := hp.end_le
    have huse := usable_le_span hp skipEdges
    have hsize : hp.cell.size = p.span := rfl
    have hlo : hp.cell.lo = 2 ^ 128 + v6Nat b := by
      rw [hp.lo_eq, hnet]
      rfl
    have hfam : p.net.isV6 = true := by rw [hnet]; rfl
    rw [hfam, hsize, hlo] at hend
    simp only [if_true] at hend
    have hedge : edgeOffset skipEdges p = 0 := by
      unfold edgeOffset prefixHasEdges
      rw [hnet]
      simp
    unfold prefixNth Prefix.lo
    rw [hnet, hedge]
    dsimp only [Addr.place]
    rw [v6Nat_addV6, Nat.mod_eq_of_lt (by omega)]
    omega

theorem mem_prefixOwn {x : Addr} : x ∈ prefixOwn skipEdges p ↔ Enumerates skipEdges p x.place := by
  unfold prefixOwn Enumerates
  rw [List.mem_map]
  constructor
  · rintro ⟨k, hk, rfl⟩
    have hk := List.mem_range.mp hk
    rw [place_prefixNth hp skipEdges hk]
    omega
  · rintro ⟨hlo, hhi⟩
    have hk : x.place - (p.lo + edgeOffset skipEdges p) < prefixUsable p skipEdges := by omega
    refine ⟨_, List.mem_range.mpr hk, place_inj ?_⟩
    rw [place_prefixNth hp skipEdges hk]
    omega

theorem enumerates_mem {x : Nat} (hx : Enumerates skipEdges p x) : p.lo ≤ x ∧ x < p.lo + p.span := by
  have := usable_le_span hp skipEdges
  obtain ⟨h₁, h₂⟩ := hx
  omega

end Own

section Contains

variable {p q r : Prefix} (hp : p.Canon) (hq : q.Canon) (hr : r.Canon)
include hp hq

theorem contains_iff_within : prefixContains p q = true ↔ p.lo ≤ q.lo ∧ q.lo + q.span ≤ p.lo + p.span :=
  prefixContains_iff hp hq

theorem contains_or_contains {x : Nat} (hpx : p.lo ≤ x ∧ x < p.lo + p.span) (hqx : q.lo ≤ x ∧ x < q.lo + q.span) :
    prefixContains p q = true ∨ prefixContains q p = true := by
  rw [prefixContains_iff hp hq, prefixContains_iff hq hp]
  rcases Nat.le_total hq.cell.exp hp.cell.exp with h | h
  · exact .inl (Cell.within_of_meet h hqx hpx)
  · exact .inr (Cell.within_of_meet h hpx hqx)

theorem contains_antisymm (h : prefixContains p q = true) (h' : prefixContains q p = true) : p = q := by
  rw [prefixContains_iff hp hq] at h
  rw [prefixContains_iff hq hp] at h'
  exact hp.eq_of_cell hq (h'.antisymm h)

theorem key_order (h : prefixKey p ≤ prefixKey q) :
    p.lo ≤ q.lo ∧ (p.lo = q.lo → prefixContains p q = true) := by
  have hplt := place_lt p.net
  have hqlt := place_lt q.net
  have hsame (hlo : p.lo = q.lo) (hbits : p.bits ≤ q.bits) : prefixContains p q = true := by
    have hnet : p.net = q.net := place_inj hlo
    rw [contains_iff_within hp hq]
    unfold Prefix.span
    rw [hnet, ← hlo]
    refine ⟨Nat.le_refl _, Nat.add_le_add_left (Nat.pow_le_pow_right (by decide) ?_) _⟩
    omega
  unfold prefixKey at h
  unfold Prefix.lo at hsame ⊢
  cases hpn : p.net with
  | v4 a =>
    cases hqn : q.net with
    | v4 b =>
      rw [hpn, hqn] at h hsame
      rw [Prod.Lex.toLex_le_toLex] at h
      dsimp only [Addr.place] at h hsame ⊢
      exact ⟨by omega, fun he => hsame he (by omega)⟩
    | v6 b =>
      have := a.toNat_lt
      dsimp only [Addr.place]
      constructor
      · omega
      · intro he
        omega
  | v6 a =>
    cases hqn : q.net with
    | v4 b =>
      rw [hpn, hqn] at h
      rw [Prod.Lex.toLex_le_toLex] at h
      have := b.toNat_lt
      dsimp only at h
      omega
    | v6 b =>
      rw [hpn, hqn] at h hsame
      rw [Prod.Lex.toLex_le_toLex] at h
      change 2 ^ 32 + v6Nat a < 2 ^ 32 + v6Nat b ∨ 2 ^ 32 + v6Nat a = 2 ^ 32 + v6Nat b ∧ p.bits ≤ q.bits at h
      dsimp only [Addr.place] at hsame ⊢
      exact ⟨by omega, fun he => hsame he (by omega)⟩

/-- Of two prefixes in order the second lies in the first or wholly behind it. -/
theorem behind_or_contains (h : prefixKey p ≤ prefixKey q) (hno : ¬ prefixContains p q = true) :
    p.lo + p.span ≤ q.lo := by
  obtain ⟨hle, heq⟩ := key_order hp hq h
  by_contra hlt
  have hspan := q.span_pos
  rcases contains_or_contains hp hq (x := q.lo) (by omega) (by omega) with h | h
  · exact hno h
  · have := (contains_iff_within hq hp).mp h
    exact hno (heq (by omega))

include hr

theorem contains_trans (h : prefixContains p q = true) (h' : prefixContains q r = true) :
    prefixContains p r = true := by
  rw [contains_iff_within hp hr]
  obtain ⟨h₁, h₂⟩ := (contains_iff_within hp hq).mp h
  obtain ⟨h₃, h₄⟩ := (contains_iff_within hq hr).mp h'
  omega

end Contains

end Qanat
