import Qanat.CfRecord
import Qanat.CidrOrder
import Qanat.General.BinaryInsertion

namespace Qanat

/-- `address_order`. -/
def addressOrder : Addr → Addr → Ordering
  | .v4 _, .v6 _ => .lt
  | .v6 _, .v4 _ => .gt
  | .v4 x, .v4 y => if x < y then .lt else if y < x then .gt else .eq
  | .v6 x, .v6 y => memcmp x.toList y.toList

/-- The test of `qn_cf_sort`: `b`, being placed, goes behind `a`. -/
def cfSortBehind (a b : CfRecord) : Option Bool :=
  some (b.score < a.score ∨ (a.score = b.score ∧ addressOrder a.addr b.addr ≠ .gt))

/-- `qn_cf_sort`. -/
def cfSort (v : List CfRecord) : Option (List CfRecord) :=
  BinaryInsertion.sort cfSortBehind v

/-- `record_address_order`. -/
def recordAddressOrder (a b : CfRecord) : Ordering :=
  match a.addr, b.addr with
  | .v4 _, .v6 _ => .lt
  | .v6 _, .v4 _ => .gt
  | .v4 x, .v4 y => if x < y then .lt else if y < x then .gt else .eq
  | .v6 x, .v6 y => memcmp x.toList y.toList

/-- `record_index_precedes`; no result stands for an index outside the records. -/
def recordIndexPrecedes (records : List CfRecord) (left right : Nat) : Option Bool :=
  records[left]?.bind fun a => records[right]?.map fun b =>
    b.score < a.score ∨ (a.score = b.score ∧ recordAddressOrder a b ≠ .gt)

/-- `sort_record_indices`. -/
def sortRecordIndices (records : List CfRecord) (indices : List Nat) : Option (List Nat) :=
  BinaryInsertion.sort (recordIndexPrecedes records) indices

/-- Where an address stands: all of IPv4 before IPv6, and each family by the number its bytes spell. -/
def Addr.rank : Addr → Nat
  | .v4 a => a.toNat
  | .v6 b => 2 ^ 32 + bigEndian b.toList

/-- Where a record stands: the higher score first, then the lower address. -/
def CfRecord.rank (r : CfRecord) : Natᵒᵈ ×ₗ Nat :=
  toLex (OrderDual.toDual r.score.toNat, r.addr.rank)

theorem addressOrder_eq (x y : Addr) : addressOrder x y = compare x.rank y.rank := by
  cases x with
  | v4 a =>
    cases y with
    | v4 b =>
      unfold addressOrder Addr.rank
      rw [Nat.compare_eq_ite_lt]
      simp only [UInt32.lt_iff_toNat_lt]
    | v6 b =>
      have ha := a.toNat_lt
      exact (compare_lt_iff_lt.mpr (show a.toNat < 2 ^ 32 + bigEndian b.toList by omega)).symm
  | v6 a =>
    cases y with
    | v4 b =>
      have hb := b.toNat_lt
      exact (compare_gt_iff_gt.mpr (show b.toNat < 2 ^ 32 + bigEndian a.toList by omega)).symm
    | v6 b =>
      unfold addressOrder Addr.rank
      dsimp only
      rw [memcmp_eq (by simp)]
      simp only [Nat.compare_eq_ite_lt, Nat.add_lt_add_iff_left]

/-- The two comparators of addresses are one. -/
theorem recordAddressOrder_eq (a b : CfRecord) : recordAddressOrder a b = addressOrder a.addr b.addr := by
  unfold recordAddressOrder addressOrder
  rfl

theorem rank_le_iff (a b : CfRecord) : a.rank ≤ b.rank ↔
    b.score < a.score ∨ (a.score = b.score ∧ addressOrder a.addr b.addr ≠ .gt) := by
  unfold CfRecord.rank
  rw [Prod.Lex.toLex_le_toLex, addressOrder_eq, compare_le_iff_le, OrderDual.toDual_lt_toDual,
    UInt32.lt_iff_toNat_lt]
  have heq : OrderDual.toDual a.score.toNat = OrderDual.toDual b.score.toNat ↔ a.score = b.score := by
    rw [OrderDual.toDual_inj, UInt32.toNat_inj]
  rw [heq]

theorem bigEndian_inj {xs ys : List UInt8} (hlen : xs.length = ys.length) (h : bigEndian xs = bigEndian ys) :
    xs = ys := by
  induction xs generalizing ys with
  | nil => exact (List.eq_nil_of_length_eq_zero hlen.symm).symm
  | cons x xs ih =>
    cases ys with
    | nil => cases hlen
    | cons y ys =>
      have hrest : xs.length = ys.length := Nat.succ.inj hlen
      rcases Nat.lt_trichotomy x.toNat y.toNat with hlt | heq | hlt
      · exact absurd h (bigEndian_lt_of_head hrest (UInt8.lt_iff_toNat_lt.mpr hlt)).ne
      · obtain rfl := UInt8.toNat_inj.mp heq
        unfold bigEndian at h
        rw [hrest] at h
        rw [ih hrest (Nat.add_left_cancel h)]
      · exact absurd h (bigEndian_lt_of_head hrest.symm (UInt8.lt_iff_toNat_lt.mpr hlt)).ne'

theorem addr_rank_inj {x y : Addr} (h : x.rank = y.rank) : x = y := by
  cases x with
  | v4 a =>
    cases y with
    | v4 b => exact congrArg Addr.v4 (UInt32.toNat_inj.mp h)
    | v6 b =>
      have ha := a.toNat_lt
      unfold Addr.rank at h
      dsimp only at h
      omega
  | v6 a =>
    cases y with
    | v4 b =>
      have hb := b.toNat_lt
      unfold Addr.rank at h
      dsimp only at h
      omega
    | v6 b =>
      have hab := bigEndian_inj (by simp) (Nat.add_left_cancel h)
      exact congrArg Addr.v6 (Vector.toList_inj.mp hab)

theorem cfSortBehind_eq (a b : CfRecord) : cfSortBehind a b = some (decide (a.rank ≤ b.rank)) := by
  unfold cfSortBehind
  simp only [rank_le_iff]

theorem recordIndexPrecedes_eq {records : List CfRecord} {i j : Nat} {a b : CfRecord} (ha : records[i]? = some a)
    (hb : records[j]? = some b) : recordIndexPrecedes records i j = cfSortBehind a b := by
  unfold recordIndexPrecedes cfSortBehind
  rw [ha, hb, Option.bind_some, Option.map_some]
  simp only [recordAddressOrder_eq]

theorem rank_eq_iff (r : CfRecord) (score : UInt32) (addr : Addr) :
    r.rank = toLex (OrderDual.toDual score.toNat, addr.rank) ↔ r.score = score ∧ r.addr = addr := by
  unfold CfRecord.rank
  rw [toLex_inj, Prod.mk.injEq, OrderDual.toDual_inj, UInt32.toNat_inj]
  exact ⟨fun h => ⟨h.1, addr_rank_inj h.2⟩, fun h => ⟨h.1, by rw [h.2]⟩⟩

/-- Records by descending score, and within a score by ascending address. -/
def InRankOrder (out : List CfRecord) : Prop :=
  out.Pairwise fun a b => b.score < a.score ∨ (a.score = b.score ∧ a.addr.rank ≤ b.addr.rank)

theorem inRankOrder_iff (out : List CfRecord) :
    InRankOrder out ↔ out.Pairwise fun a b => a.rank ≤ b.rank := by
  unfold InRankOrder
  simp only [rank_le_iff, addressOrder_eq, compare_le_iff_le]

theorem sortRecordIndices_map {records : List CfRecord} {indices : List Nat} {f : Nat → CfRecord}
    (hf : ∀ i ∈ indices, records[i]? = some (f i)) :
    cfSort (indices.map f) = (sortRecordIndices records indices).map (List.map f) :=
  BinaryInsertion.sort_map fun i hi j hj => (recordIndexPrecedes_eq (hf i hi) (hf j hj)).symm

/-- The records at some indices. -/
def recordsAt (records : List CfRecord) (indices : List Nat) : List CfRecord :=
  indices.filterMap fun i => records[i]?

theorem recordsAt_eq {records : List CfRecord} {indices : List Nat} {f : Nat → CfRecord}
    (hf : ∀ i ∈ indices, records[i]? = some (f i)) : recordsAt records indices = indices.map f := by
  unfold recordsAt
  rw [List.filterMap_congr hf, List.filterMap_eq_map']

theorem cfSort_ranks (v : List CfRecord) : ∃ out, cfSort v = some out ∧ out.Perm v ∧ InRankOrder out ∧
    ∀ score addr, out.filter (fun r => r.score = score ∧ r.addr = addr) =
      v.filter fun r => r.score = score ∧ r.addr = addr := by
  obtain ⟨out, hout, hranked⟩ := @BinaryInsertion.sort_spec _ _ _ CfRecord.rank cfSortBehind v
    fun a _ b _ => cfSortBehind_eq a b
  refine ⟨out, hout, hranked.perm, (inRankOrder_iff out).mpr hranked.sorted, fun score addr => ?_⟩
  have hstable := hranked.stable (toLex (OrderDual.toDual score.toNat, addr.rank))
  simpa only [rank_eq_iff] using hstable

theorem sortRecordIndices_ranks {records : List CfRecord} {indices : List Nat} {f : Nat → CfRecord}
    (hf : ∀ i ∈ indices, records[i]? = some (f i)) :
    ∃ out, sortRecordIndices records indices = some out ∧ out.Perm indices ∧
      cfSort (recordsAt records indices) = some (recordsAt records out) ∧
      ∀ score addr, out.filter (fun i => (records[i]?).any fun r => r.score = score ∧ r.addr = addr) =
        indices.filter fun i => (records[i]?).any fun r => r.score = score ∧ r.addr = addr := by
  obtain ⟨out, hout, hranked⟩ := @BinaryInsertion.sort_spec _ _ _ (fun i => (f i).rank)
    (recordIndexPrecedes records) indices fun i hi j hj =>
      (recordIndexPrecedes_eq (hf i hi) (hf j hj)).trans (cfSortBehind_eq _ _)
  have hfout : ∀ i ∈ out, records[i]? = some (f i) := fun i hi => hf i (hranked.perm.mem_iff.mp hi)
  refine ⟨out, hout, hranked.perm, ?_, fun score addr => ?_⟩
  · rw [recordsAt_eq hf, recordsAt_eq hfout, sortRecordIndices_map hf]
    exact congrArg (Option.map (List.map f)) hout
  · have hkey : ∀ l : List Nat, (∀ i ∈ l, records[i]? = some (f i)) →
        l.filter (fun i => (records[i]?).any fun r => r.score = score ∧ r.addr = addr) =
          l.filter fun i => decide ((f i).rank = toLex (OrderDual.toDual score.toNat, addr.rank)) := by
      intro l hl
      refine List.filter_congr fun i hi => ?_
      rw [hl i hi, Option.any_some]
      simp only [rank_eq_iff]
    rw [hkey out hfout, hkey indices hf]
    exact hranked.stable _

/-- `qn_cf_sort` ranks any records, and `sort_record_indices` does to their indices what it does to them. -/
theorem cf_sort_ranks (v : List CfRecord) :
    (∃ out, cfSort v = some out ∧ out.Perm v ∧ InRankOrder out ∧
      ∀ score addr, out.filter (fun r => r.score = score ∧ r.addr = addr) =
        v.filter fun r => r.score = score ∧ r.addr = addr) ∧
    ∀ indices : List Nat, (∀ i ∈ indices, i < v.length) →
      ∃ out, sortRecordIndices v indices = some out ∧ out.Perm indices ∧
        cfSort (recordsAt v indices) = some (recordsAt v out) ∧
        ∀ score addr, out.filter (fun i => (v[i]?).any fun r => r.score = score ∧ r.addr = addr) =
          indices.filter fun i => (v[i]?).any fun r => r.score = score ∧ r.addr = addr := by
  refine ⟨cfSort_ranks v, fun indices hin => ?_⟩
  cases v with
  | nil =>
    obtain rfl : indices = [] := List.eq_nil_iff_forall_not_mem.mpr fun i hi => Nat.not_lt_zero i (hin i hi)
    exact ⟨[], rfl, .refl _, rfl, fun _ _ => rfl⟩
  | cons r v =>
    refine sortRecordIndices_ranks (f := fun i => (r :: v).getD i r) fun i hi => ?_
    rw [List.getD_eq_getElem?_getD, List.getElem?_eq_getElem (hin i hi), Option.getD_some]

/-- A record of which only the address, the score and the rate are set. -/
def scoredRecord (addr : Addr) (score kbps : UInt32) : CfRecord :=
  ⟨addr, 0, 0, 0, 0, score, 0, 0, 0, 0, 0, 0, 0, 0, 0, 0, [], kbps, 0, false, 0⟩

/-- Two records of one address and score keep their order, behind one of a higher score. -/
theorem cf_sort_ranks_sample :
    sortRecordIndices [scoredRecord (.v4 7) 1 1, scoredRecord (.v4 7) 1 2, scoredRecord (.v4 9) 2 0] [0, 1, 2] =
        some [2, 0, 1] ∧
      ∃ out, sortRecordIndices [scoredRecord (.v4 7) 1 1, scoredRecord (.v4 7) 1 2, scoredRecord (.v4 9) 2 0]
        [0, 1, 2] = some out ∧ out.Perm [0, 1, 2] := by
  obtain ⟨out, hout, hperm, -⟩ := (cf_sort_ranks
    [scoredRecord (.v4 7) 1 1, scoredRecord (.v4 7) 1 2, scoredRecord (.v4 9) 2 0]).2 [0, 1, 2] (by simp)
  exact ⟨by decide, out, hout, hperm⟩

end Qanat
