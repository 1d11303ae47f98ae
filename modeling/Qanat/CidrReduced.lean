import Qanat.CidrSealedV4
import Mathlib.Data.Set.Card

namespace Qanat

open Dyadic

/-- The blocks of addresses of a list of prefixes. -/
def cells (v : List Prefix) : Set Cell :=
  {c | ∃ p ∈ v, ∃ hp : p.Canon, hp.cell = c}

theorem covered_cells {v : List Prefix} (hv : ∀ p ∈ v, p.CanonV4) (x : Nat) :
    Covered (cells v) x ↔ covered v x := by
  constructor
  · rintro ⟨c, ⟨p, hp, hcanon, rfl⟩, hx⟩
    exact ⟨p, hp, (hv p hp).covers_iff.mpr hx⟩
  · rintro ⟨p, hp, hx⟩
    exact ⟨(hv p hp).canon.cell, ⟨p, hp, (hv p hp).canon, rfl⟩, (hv p hp).covers_iff.mp hx⟩

/-- The halves of a block are merged wherever they meet. -/
theorem mergeSiblings_of_siblings {p q : Prefix} (hp : p.CanonV4) (hq : q.CanonV4)
    (h : hp.canon.cell.Siblings hq.canon.cell) : mergeSiblings p q ≠ none := by
  obtain ⟨a, ha⟩ := hp.net
  obtain ⟨b, hb⟩ := hq.net
  obtain ⟨hexp, hnext, hdvd⟩ := h
  have hpb := hp.bits
  have hqb := hq.bits
  have hbits : p.bits = q.bits := by
    have : p.net.width - p.bits = q.net.width - q.bits := hexp
    rw [ha, hb] at this
    change 32 - p.bits = 32 - q.bits at this
    omega
  have hlo : a.toNat + 2 ^ (32 - p.bits) = b.toNat := by
    have hplace : p.net.place + 2 ^ (p.net.width - p.bits) = q.net.place := hnext
    rwa [ha, hb] at hplace
  have hblt := b.toNat_lt
  have hzero : p.bits ≠ 0 := by
    intro hz
    rw [hz] at hlo
    omega
  have halign : a.toNat % (2 ^ (32 - p.bits) * 2) = 0 := by
    have hdvd' : 2 ^ (p.net.width - p.bits + 1) ∣ p.net.place := hdvd
    rw [ha, Nat.pow_succ] at hdvd'
    exact Nat.mod_eq_zero_of_dvd hdvd'
  unfold mergeSiblings
  rw [ha, hb, if_neg (by tauto)]
  dsimp only
  rw [Nat.one_shiftLeft, if_neg (by tauto)]
  simp

/-- No two neighbours of an output are the halves of one prefix; the output is kept last one first. -/
def Unmerged (out : List Prefix) : Prop :=
  out.IsChain fun q p => mergeSiblings p q = none

/-- The merging loop stops where there is nothing to merge, or where the result is contained. -/
theorem mergeDown_unmerged {out : List Prefix} {cur : Prefix} (h : Unmerged out) :
    Unmerged (mergeDown false out cur).1 ∧
      (topContains (mergeDown false out cur).1 (mergeDown false out cur).2 = true ∨
        Unmerged ((mergeDown false out cur).2 :: (mergeDown false out cur).1)) := by
  induction out generalizing cur with
  | nil => exact ⟨h, .inr (List.isChain_singleton _)⟩
  | cons top rest ih =>
    have hrest : Unmerged rest := h.tail
    unfold mergeDown
    rw [if_neg (by simp)]
    cases hm : mergeSiblings top cur with
    | none => exact ⟨h, .inr (List.isChain_cons_cons.mpr ⟨hm, h⟩)⟩
    | some merged =>
      dsimp only
      split
      next htop => exact ⟨hrest, .inl htop⟩
      next => exact ih hrest

theorem normalizeStep_unmerged {out : List Prefix} {cur : Prefix} (h : Unmerged out) :
    Unmerged (normalizeStep false out cur) := by
  unfold normalizeStep
  split
  next => exact h
  next =>
    obtain ⟨hleft, hcur⟩ := @mergeDown_unmerged _ cur h
    dsimp only
    split
    next => exact hleft
    next htop => exact hcur.resolve_left htop

theorem normalizeFold_unmerged {v out : List Prefix} (h : Unmerged out) :
    Unmerged (v.foldl (normalizeStep false) out) := by
  induction v generalizing out with
  | nil => exact h
  | cons p v ih => exact ih (normalizeStep_unmerged h)

section Normal

variable {v : List Prefix} (hv : ∀ p ∈ v, p.CanonV4)
include hv

theorem normalize_nodup : (normalizePrefixes false v).Nodup := by
  obtain ⟨-, hapart, -⟩ := normalizePrefixes_ok false hv
  refine hapart.imp ?_
  rintro p q hpq rfl
  have hpos : 0 < p.size := Nat.pow_pos (by decide)
  omega

omit hv in
/-- In an ascending list of prefixes, one that starts where another ends is its neighbour. -/
theorem chain_adjacent {R : Prefix → Prefix → Prop} {l : List Prefix} (hchain : l.IsChain R)
    (hapart : l.Pairwise fun p q => p.base + p.size ≤ q.base) {p q : Prefix} (hp : p ∈ l) (hq : q ∈ l)
    (hadj : p.base + p.size = q.base) : R p q := by
  have hpos (r : Prefix) : 0 < r.size := Nat.pow_pos (by decide)
  induction l with
  | nil => exact absurd hp List.not_mem_nil
  | cons r l ih =>
    obtain ⟨hfirst, hrest⟩ := List.pairwise_cons.mp hapart
    have hqr : q ≠ r := by
      rintro rfl
      have hp' := hpos p
      rcases List.mem_cons.mp hp with rfl | hp
      · omega
      · have := hfirst p hp
        have := hpos q
        omega
    have hql : q ∈ l := (List.mem_cons.mp hq).resolve_left hqr
    rcases List.mem_cons.mp hp with rfl | hp
    · cases l with
      | nil => exact absurd hql List.not_mem_nil
      | cons t l =>
        obtain ⟨hhead, -⟩ := List.isChain_cons_cons.mp hchain
        rcases List.mem_cons.mp hql with rfl | hql
        · exact hhead
        · have := hfirst t List.mem_cons_self
          have := (List.pairwise_cons.mp hrest).1 q hql
          have := hpos t
          omega
    · exact ih hchain.tail hrest hp hql

/-- No two prefixes of the normal form are the halves of one. -/
theorem normalize_unmerged {p q : Prefix} (hp : p ∈ normalizePrefixes false v)
    (hq : q ∈ normalizePrefixes false v) : mergeSiblings p q = none := by
  obtain ⟨hcanon, hapart, -⟩ := normalizePrefixes_ok false hv
  have hchain : (normalizePrefixes false v).IsChain fun p q => mergeSiblings p q = none :=
    List.isChain_reverse.mpr (normalizeFold_unmerged List.isChain_nil)
  cases hm : mergeSiblings p q with
  | none => rfl
  | some m =>
    obtain ⟨-, -, -, -, hadj⟩ := mergeSiblings_v4 (hcanon p hp) (hcanon q hq) hm
    have hnone := chain_adjacent hchain hapart hp hq hadj
    exact absurd (hnone.symm.trans hm) (by simp)

theorem normalize_apart {p q : Prefix} (hp : p ∈ normalizePrefixes false v) (hq : q ∈ normalizePrefixes false v)
    {x : Nat} (hpx : p.Covers x) (hqx : q.Covers x) : p = q := by
  obtain ⟨-, hapart, -⟩ := normalizePrefixes_ok false hv
  have hsymm : Std.Symm fun p q : Prefix => ∀ x, p.Covers x → q.Covers x → p = q :=
    ⟨fun _ _ h x hx hy => (h x hy hx).symm⟩
  have hpair : (normalizePrefixes false v).Pairwise fun p q => ∀ x, p.Covers x → q.Covers x → p = q := by
    refine hapart.imp ?_
    rintro p q hpq x ⟨_, hlt⟩ ⟨hle, _⟩
    omega
  exact hpair.forall_of_forall (fun _ _ _ _ _ => rfl) hp hq x hpx hqx

theorem normalize_reduced : Reduced (cells (normalizePrefixes false v)) := by
  have hcanon := (normalizePrefixes_ok false hv).1
  constructor
  · rintro _ ⟨p, hp, hpc, rfl⟩ _ ⟨q, hq, hqc, rfl⟩ x hx hy
    obtain rfl := normalize_apart hv hp hq ((hcanon p hp).covers_iff.mpr hx) ((hcanon q hq).covers_iff.mpr hy)
    rfl
  · rintro _ ⟨p, hp, hpc, rfl⟩ _ ⟨q, hq, hqc, rfl⟩ hsib
    exact mergeSiblings_of_siblings (hcanon p hp) (hcanon q hq) hsib (normalize_unmerged hv hp hq)

end Normal

/-- Two lists of canonical prefixes that cover the same addresses have one normal form. -/
theorem normalize_unique {v u : List Prefix} (hv : ∀ p ∈ v, p.CanonV4) (hu : ∀ p ∈ u, p.CanonV4)
    (h : ∀ x, covered v x ↔ covered u x) : normalizePrefixes false v = normalizePrefixes false u := by
  obtain ⟨hcv, hav, hcovv⟩ := normalizePrefixes_ok false hv
  obtain ⟨hcu, hau, hcovu⟩ := normalizePrefixes_ok false hu
  have hcells : cells (normalizePrefixes false v) = cells (normalizePrefixes false u) := by
    apply (normalize_reduced hv).unique (normalize_reduced hu)
    intro x
    rw [covered_cells hcv, covered_cells hcu, hcovv, hcovu, h]
  have hsub {a b : List Prefix} (hca : ∀ p ∈ a, p.CanonV4) (hab : cells a = cells b) {p : Prefix}
      (hp : p ∈ a) : p ∈ b := by
    have hmem : (hca p hp).canon.cell ∈ cells b := hab ▸ ⟨p, hp, (hca p hp).canon, rfl⟩
    obtain ⟨q, hq, hqc, heq⟩ := hmem
    rwa [← hqc.eq_of_cell (hca p hp).canon heq]
  have hperm : (normalizePrefixes false v).Perm (normalizePrefixes false u) := by
    rw [List.perm_ext_iff_of_nodup (normalize_nodup hv) (normalize_nodup hu)]
    exact fun p => ⟨hsub hcv hcells, hsub hcu hcells.symm⟩
  refine hperm.eq_of_pairwise ?_ hav hau
  intro p q _ _ hpq hqp
  have hpos : 0 < p.size := Nat.pow_pos (by decide)
  have hpos' : 0 < q.size := Nat.pow_pos (by decide)
  omega

/-- An IPv4 address as a number. -/
def Addr.toNat4 : Addr → Nat
  | .v4 a => a.toNat
  | .v6 _ => 0

/-- The total of a sealed set with its edges kept is the number of addresses that are covered. -/
theorem seal_total {s : CidrSet} (hv : ∀ p ∈ s.v, p.CanonV4) (hedges : s.skipEdges = false) :
    (cidrSetSeal s).total = {x | covered s.v x}.ncard := by
  have hsealed := cidrSetSeal_sealed hv
  have hmem (x : Addr) : x ∈ (cidrSetSeal s).addrs ↔ ∃ a : UInt32, x = .v4 a ∧ covered s.v a.toNat := by
    rw [hsealed.mem_addrs, cidrSetSeal_contains hv hedges]
  have hnodup : ((cidrSetSeal s).addrs.map Addr.toNat4).Nodup := by
    refine hsealed.sealed.nodup.map_on ?_
    intro x hx y hy hxy
    obtain ⟨a, rfl, -⟩ := (hmem x).mp hx
    obtain ⟨b, rfl, -⟩ := (hmem y).mp hy
    rw [UInt32.toNat_inj.mp hxy]
  have hset : {x | covered s.v x} = (((cidrSetSeal s).addrs.map Addr.toNat4).toFinset : Set Nat) := by
    ext x
    simp only [Set.mem_ofPred_eq, List.coe_toFinset, List.mem_map]
    constructor
    · rintro ⟨p, hp, hx⟩
      have hend := (hv p hp).end_le
      have hlt : x < 2 ^ 32 := Nat.lt_of_lt_of_le hx.2 hend
      have hnat : (UInt32.ofNat x).toNat = x := UInt32.toNat_ofNat_of_lt' hlt
      exact ⟨.v4 (UInt32.ofNat x), (hmem _).mpr ⟨_, rfl, by rw [hnat]; exact ⟨p, hp, hx⟩⟩, hnat⟩
    · rintro ⟨y, hy, rfl⟩
      obtain ⟨a, rfl, ha⟩ := (hmem y).mp hy
      exact ha
  rw [hset, Set.ncard_coe_finset, List.toFinset_card_of_nodup hnodup, List.length_map, hsealed.sealed.length_addrs]

/-- The normal form of a list of IPv4 prefixes. -/
structure NormalV4 (ps : List Prefix) (s : CidrSet) : Prop where
  canonical : ∀ p ∈ s.v, p.CanonV4
  ascending : s.v.Pairwise fun p q => prefixCmp p q = .lt
  disjoint : s.v.Pairwise fun p q => ∀ x, ¬ (p.Covers x ∧ q.Covers x)
  unmerged : ∀ p ∈ s.v, ∀ q ∈ s.v, mergeSiblings p q = none
  union : ∀ x, covered s.v x ↔ covered ps x
  total : s.total = {x | covered ps x}.ncard

theorem prefixCmp_lt {p q : Prefix} (hp : p.CanonV4) (hq : q.CanonV4) (h : p.base < q.base) :
    prefixCmp p q = .lt := by
  obtain ⟨a, ha⟩ := hp.net
  obtain ⟨b, hb⟩ := hq.net
  unfold Prefix.base at h
  rw [ha, hb] at h
  unfold prefixCmp
  rw [ha, hb]
  dsimp only
  rw [if_pos (UInt32.lt_iff_toNat_lt.mpr h)]

/-- Sealing a list of canonical IPv4 prefixes leaves the normal form of the addresses they cover. -/
theorem seal_normal {ps : List Prefix} (hps : ∀ p ∈ ps, p.CanonV4) {cap : Nat} (hcap : ps.length ≤ cap) :
    ∃ s, ps.foldlM cidrSetAdd (cidrSetInit cap false) = some s ∧ NormalV4 ps (cidrSetSeal s) ∧
      ∀ qs t cap', (∀ p ∈ qs, p.CanonV4) → qs.foldlM cidrSetAdd (cidrSetInit cap' false) = some t →
        (∀ x, covered ps x ↔ covered qs x) →
        (cidrSetSeal t).v = (cidrSetSeal s).v ∧ (cidrSetSeal t).total = (cidrSetSeal s).total := by
  have hadded := (addAll_iff (s := cidrSetInit cap false) (Nat.zero_le _)).mpr
    ⟨fun p hp => (hps p hp).canon, by simpa [cidrSetInit] using hcap, rfl⟩
  simp only [cidrSetInit, List.nil_append] at hadded
  refine ⟨_, hadded, ?_, ?_⟩
  · obtain ⟨hcanon, hapart, hunion⟩ := normalizePrefixes_ok false hps
    refine ⟨?_, ?_, ?_, ?_, ?_, seal_total hps rfl⟩
    all_goals rw [seal_v]
    · exact hcanon
    · refine hapart.imp_of_mem ?_
      intro p q hp hq hpq
      have hpos : 0 < p.size := Nat.pow_pos (by decide)
      exact prefixCmp_lt (hcanon p hp) (hcanon q hq) (by omega)
    · refine hapart.imp ?_
      rintro p q hpq x ⟨⟨_, hlt⟩, hle, _⟩
      omega
    · exact fun p hp q hq => normalize_unmerged hps hp hq
    · exact hunion
  · intro qs t cap' hqs ht hsame
    obtain ⟨-, -, rfl⟩ := (addAll_iff (s := cidrSetInit cap' false) (Nat.zero_le _)).mp ht
    refine ⟨?_, ?_⟩
    · rw [seal_v, seal_v]
      exact (normalize_unique hps hqs hsame).symm
    · have hset : {x | covered qs x} = {x | covered ps x} := by
        ext x
        exact (hsame x).symm
      rw [seal_total hqs rfl, seal_total hps rfl]
      exact congrArg Set.ncard hset

def lanPrefix (a : UInt32) (bits : Nat) : Prefix :=
  ⟨.v4 a, bits, prefixHosts ⟨.v4 a, bits, 0⟩⟩

/-- Two halves of a network and a host of it come to the network. -/
theorem seal_normal_sample :
    ∃ s, [lanPrefix 0x0A000080 25, lanPrefix 0x0A000005 32, lanPrefix 0x0A000000 25].foldlM cidrSetAdd
      (cidrSetInit 3 false) = some s ∧
      NormalV4 [lanPrefix 0x0A000080 25, lanPrefix 0x0A000005 32, lanPrefix 0x0A000000 25] (cidrSetSeal s) := by
  have hcanon : ∀ p ∈ [lanPrefix 0x0A000080 25, lanPrefix 0x0A000005 32, lanPrefix 0x0A000000 25], p.CanonV4 := by
    intro p hp
    simp only [List.mem_cons, List.not_mem_nil, or_false] at hp
    rcases hp with rfl | rfl | rfl
    all_goals exact ⟨⟨_, rfl⟩, by decide, by decide, rfl⟩
  obtain ⟨s, hs, hnormal, -⟩ := seal_normal hcanon (show 3 ≤ 3 by decide)
  exact ⟨s, hs, hnormal⟩

end Qanat
