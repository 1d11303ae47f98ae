import Qanat.CidrEnum
import Qanat.General.Cumulative
import Mathlib.Data.List.Nodup

namespace Qanat

/-- The addresses of a sealed set in the order of their indices. -/
def CidrSet.addrs (s : CidrSet) : List Addr :=
  s.v.flatMap fun p => (List.range (prefixUsable p s.skipEdges)).map (prefixNth s.skipEdges p)

theorem CidrSet.mem_addrs {s : CidrSet} {x : Addr} : x ∈ s.addrs ↔ ∃ p ∈ s.v, x ∈ prefixOwn s.skipEdges p :=
  List.mem_flatMap

theorem cumsumFrom_spec (skipEdges : Bool) (v : List Prefix) (acc : Nat)
    (hfit : acc + (v.map (prefixUsable · skipEdges)).sum < 2 ^ 64) :
    ∃ sums, cumsumFrom skipEdges acc v = some (sums, acc + (v.map (prefixUsable · skipEdges)).sum) ∧
      ∀ k < v.length, sums[k]? = some (acc + Cumulative.upto (prefixUsable · skipEdges) v (k + 1)) := by
  induction v generalizing acc with
  | nil => exact ⟨[], by simp [cumsumFrom], by simp⟩
  | cons p v ih =>
    simp only [List.map_cons, List.sum_cons] at hfit
    obtain ⟨sums, hsums, hget⟩ := ih (acc + prefixUsable p skipEdges) (by omega)
    refine ⟨(acc + prefixUsable p skipEdges) :: sums, ?_, ?_⟩
    · unfold cumsumFrom
      rw [if_neg (by omega), hsums]
      simp [Nat.add_assoc]
    · intro k hk
      cases k with
      | zero => simp [Cumulative.upto]
      | succ k =>
        rw [List.getElem?_cons_succ, hget k (by simpa using hk)]
        simp [Cumulative.upto, Nat.add_assoc]

/-- The search of `qn_cidr_set_nth` ends at the prefix that owns the index. -/
theorem cidrSetNth_of_sums {s : CidrSet} {sums : List Nat} (hsums : s.cumsum = some sums)
    (hget : ∀ k < s.v.length, sums[k]? = some (Cumulative.upto (prefixUsable · s.skipEdges) s.v (k + 1)))
    (hsum : s.total = (s.v.map (prefixUsable · s.skipEdges)).sum) {idx : Nat} (hidx : idx < s.total) :
    cidrSetNth s idx = s.addrs[idx]? := by
  let f : Prefix → Nat := (prefixUsable · s.skipEdges)
  have htotal : s.total = Cumulative.upto f s.v s.v.length := by
    rw [Cumulative.upto_length]
    exact hsum
  have hne : 0 < s.v.length := by
    rcases Nat.eq_zero_or_pos s.v.length with h | h
    · rw [htotal, h] at hidx
      simp [Cumulative.upto] at hidx
    · exact h
  obtain ⟨k, hk, -, hle, hbelow, hat⟩ := Bisect.search_spec
    (fun mid => sums[mid]?.map (decide <| idx < ·)) (fun i => idx < Cumulative.upto f s.v (i + 1))
    (fun i j hij hi => Nat.lt_of_lt_of_le hi (Cumulative.upto_mono f s.v (by omega)))
    (show s.v.length - 1 ≤ 0 + s.v.length by omega) (Nat.zero_le _)
    (fun i _ hi => by rw [hget i (by omega)]; rfl)
  have hkv : k < s.v.length := by omega
  have hp := List.getElem?_eq_getElem hkv
  have hupper : idx < Cumulative.upto f s.v (k + 1) := by
    rcases Nat.lt_or_ge k (s.v.length - 1) with h | h
    · exact hat h
    · rw [show k + 1 = s.v.length by omega, ← htotal]
      exact hidx
  have hlower : Cumulative.upto f s.v k ≤ idx := by
    cases k with
    | zero => simp [Cumulative.upto]
    | succ k => exact Nat.le_of_not_lt (hbelow k (Nat.zero_le _) (Nat.lt_succ_self k))
  have hbase : (if k = 0 then 0 else sums.getD (k - 1) 0) = Cumulative.upto f s.v k := by
    cases k with
    | zero => simp [Cumulative.upto]
    | succ k =>
      rw [if_neg (Nat.succ_ne_zero k), List.getD_eq_getElem?_getD, Nat.add_sub_cancel, hget k (by omega)]
      rfl
  rw [Cumulative.upto_succ f hp] at hupper
  unfold cidrSetNth
  rw [hsums]
  dsimp only
  rw [if_neg (by omega), hk]
  dsimp only
  rw [hp]
  dsimp only
  rw [hbase]
  have hown : idx - Cumulative.upto f s.v k < f s.v[k] := by omega
  have hflat := Cumulative.getElem?_flatMap
    (fun p => (List.range (prefixUsable p s.skipEdges)).map (prefixNth s.skipEdges p)) hp
    (j := idx - Cumulative.upto f s.v k) (by simpa using hown)
  simp only [List.length_map, List.length_range] at hflat
  rw [Nat.add_sub_cancel' hlower] at hflat
  unfold CidrSet.addrs
  rw [hflat, List.getElem?_map, List.getElem?_range hown]
  rfl

theorem seal_v (s : CidrSet) : (cidrSetSeal s).v = normalizePrefixes s.skipEdges s.v := by
  unfold cidrSetSeal
  dsimp only
  split <;> rfl

theorem seal_skipEdges (s : CidrSet) : (cidrSetSeal s).skipEdges = s.skipEdges := by
  unfold cidrSetSeal
  dsimp only
  split <;> rfl

theorem mergeDown_length (skipEdges : Bool) (out : List Prefix) (cur : Prefix) :
    (mergeDown skipEdges out cur).1.length ≤ out.length := by
  induction out generalizing cur with
  | nil => exact Nat.le_refl _
  | cons top rest ih =>
    unfold mergeDown
    split
    next => exact Nat.le_refl _
    next =>
      split
      next => exact Nat.le_refl _
      next merged _ =>
        split
        next => exact Nat.le_succ _
        next => exact Nat.le_trans (ih merged) (Nat.le_succ _)

theorem normalizeFold_length (skipEdges : Bool) (v out : List Prefix) :
    (v.foldl (normalizeStep skipEdges) out).length ≤ out.length + v.length := by
  induction v generalizing out with
  | nil => exact Nat.le_refl _
  | cons cur v ih =>
    have hstep : (normalizeStep skipEdges out cur).length ≤ out.length + 1 := by
      have := mergeDown_length skipEdges out cur
      unfold normalizeStep
      split
      next => omega
      next =>
        dsimp only
        split
        next => omega
        next =>
          rw [List.length_cons]
          omega
    have := ih (normalizeStep skipEdges out cur)
    rw [List.foldl_cons, List.length_cons]
    omega

theorem normalize_length (skipEdges : Bool) (v : List Prefix) :
    (normalizePrefixes skipEdges v).length ≤ v.length := by
  have := normalizeFold_length skipEdges (v.mergeSort prefixLe) []
  unfold normalizePrefixes
  rw [List.length_reverse]
  simpa using this

theorem usable_le {p : Prefix} (hp : p.Canon) (skipEdges : Bool) : prefixUsable p skipEdges ≤ 2 ^ 32 := by
  cases hnet : p.net with
  | v4 a =>
    have := usable_le_span hp skipEdges
    have hspan : p.span ≤ 2 ^ 32 := by
      unfold Prefix.span
      rw [hnet]
      exact Nat.pow_le_pow_right (by decide) (Nat.sub_le 32 p.bits)
    omega
  | v6 b =>
    have huse : prefixUsable p skipEdges ≤ prefixHosts p := by
      unfold prefixUsable
      dsimp only
      split
      all_goals omega
    rw [hosts_v6 hp hnet] at huse
    have : 2 ^ min 20 (128 - p.bits) ≤ 2 ^ 20 := Nat.pow_le_pow_right (by decide) (Nat.min_le_left _ _)
    omega

/-- The sums of a set of fewer than `2 ^ 32` prefixes do not overflow. -/
theorem sum_usable_lt {v : List Prefix} (hv : ∀ p ∈ v, p.Canon) (skipEdges : Bool) (hlen : v.length < 2 ^ 32) :
    (v.map (prefixUsable · skipEdges)).sum < 2 ^ 64 := by
  have hle : (v.map (prefixUsable · skipEdges)).sum ≤ v.length * 2 ^ 32 := by
    have := List.sum_le_card_nsmul (v.map (prefixUsable · skipEdges)) (2 ^ 32) (by
      intro n hn
      obtain ⟨p, hp, rfl⟩ := List.mem_map.mp hn
      exact usable_le (hv p hp) skipEdges)
    simpa using this
  omega

/-- A sealed set of prefixes of either family. -/
structure CidrSet.Sealed (s : CidrSet) : Prop where
  canon : ∀ p ∈ s.v, p.Canon
  apart : s.v.Pairwise fun p q => p.lo + p.span ≤ q.lo
  sums : ∃ sums, s.cumsum = some sums ∧
    ∀ k < s.v.length, sums[k]? = some (Cumulative.upto (prefixUsable · s.skipEdges) s.v (k + 1))
  total : s.total = (s.v.map (prefixUsable · s.skipEdges)).sum

theorem cidrSetSeal_of_fit {s : CidrSet} (hv : ∀ p ∈ s.v, p.Canon)
    (hfit : ((normalizePrefixes s.skipEdges s.v).map (prefixUsable · s.skipEdges)).sum < 2 ^ 64) :
    (cidrSetSeal s).Sealed := by
  obtain ⟨hcanon, hapart⟩ := normalizePrefixes_apart s.skipEdges hv
  obtain ⟨sums, hsums, hget⟩ := cumsumFrom_spec s.skipEdges (normalizePrefixes s.skipEdges s.v) 0 (by omega)
  simp only [Nat.zero_add] at hsums hget
  unfold cidrSetSeal
  dsimp only
  rw [hsums]
  exact ⟨hcanon, hapart, ⟨sums, rfl, hget⟩, rfl⟩

theorem cidrSetSeal_ok {s : CidrSet} (hv : ∀ p ∈ s.v, p.Canon) (hlen : s.v.length < 2 ^ 32) :
    (cidrSetSeal s).Sealed :=
  cidrSetSeal_of_fit hv (sum_usable_lt (normalizePrefixes_apart s.skipEdges hv).1 s.skipEdges
    (Nat.lt_of_le_of_lt (normalize_length s.skipEdges s.v) hlen))

section Nth

variable {s : CidrSet} (hs : s.Sealed)
include hs

theorem CidrSet.Sealed.length_addrs : s.addrs.length = s.total := by
  rw [hs.total]
  simp [CidrSet.addrs, List.length_flatMap]

theorem CidrSet.Sealed.nth_eq (idx : Nat) : cidrSetNth s idx = s.addrs[idx]? := by
  obtain ⟨sums, hsums, hget⟩ := hs.sums
  rcases Nat.lt_or_ge idx s.total with hidx | hidx
  · exact cidrSetNth_of_sums hsums hget hs.total hidx
  · rw [List.getElem?_eq_none (by rw [hs.length_addrs]; exact hidx), cidrSetNth, hsums]
    exact if_pos hidx

theorem CidrSet.Sealed.nth_isSome (idx : Nat) : (cidrSetNth s idx).isSome ↔ idx < s.total := by
  rw [hs.nth_eq, ← hs.length_addrs]
  simp

/-- The addresses of a sealed set are in strict order. -/
theorem CidrSet.Sealed.ordered : s.addrs.Pairwise fun x y => x.place < y.place := by
  unfold CidrSet.addrs
  rw [List.pairwise_flatMap]
  constructor
  · intro p hp
    rw [List.pairwise_map]
    refine List.Pairwise.imp_of_mem ?_ List.pairwise_lt_range
    intro i j hi hj hij
    rw [place_prefixNth (hs.canon p hp) s.skipEdges (List.mem_range.mp hi),
      place_prefixNth (hs.canon p hp) s.skipEdges (List.mem_range.mp hj)]
    omega
  · refine hs.apart.imp_of_mem ?_
    intro p q hp hq hpq x hx y hy
    have hxp := enumerates_mem (hs.canon p hp) s.skipEdges ((mem_prefixOwn (hs.canon p hp) s.skipEdges).mp hx)
    have hyq := enumerates_mem (hs.canon q hq) s.skipEdges ((mem_prefixOwn (hs.canon q hq) s.skipEdges).mp hy)
    omega

theorem CidrSet.Sealed.nth_lt {i j : Nat} {x y : Addr} (hx : cidrSetNth s i = some x) (hy : cidrSetNth s j = some y)
    (hij : i < j) : x.place < y.place := by
  rw [hs.nth_eq] at hx hy
  obtain ⟨hi, rfl⟩ := List.getElem?_eq_some_iff.mp hx
  obtain ⟨hj, rfl⟩ := List.getElem?_eq_some_iff.mp hy
  exact List.pairwise_iff_getElem.mp hs.ordered i j hi hj hij

/-- No address of a sealed set is listed twice. -/
theorem CidrSet.Sealed.nodup : s.addrs.Nodup := by
  refine hs.ordered.imp ?_
  rintro x _ hlt rfl
  exact Nat.lt_irrefl _ hlt

end Nth

end Qanat
