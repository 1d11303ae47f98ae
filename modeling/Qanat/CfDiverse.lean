import Qanat.CfRecord
import Qanat.General.OpenTable

namespace Qanat

def maxU32 : UInt32 := 0xFFFFFFFF

/-- The fields of `cf_scan` that `choose_diverse` reads and writes; `records` has `cap` places, the first `n`
in use. -/
structure CfChoice where
  records : List CfRecord
  n : Nat
  cap : Nat
  selectionScratch : List UInt32
  rttBaselineUs : List UInt32

/-- `ordered_index`; no result stands for a position outside the array. -/
def orderedIndex (order : Option (List Nat)) (position : Nat) : Option Nat :=
  match order with
  | some order => order[position]?
  | none => some position

/-- The /24 of a record that counts for the reserve: eligible, and IPv4. -/
def CfChoice.ipv4Block (s : CfChoice) (index : Nat) : Option (Option UInt32) :=
  if s.n ≤ index then some none
  else s.records[index]?.map fun r =>
    if r.hasTls then
      match r.addr with
      | .v4 a => some (a >>> 8)
      | .v6 _ => none
    else none

/-- The slot of one probe, in 32 bits. -/
def probeAt (cap slot probe : Nat) : Nat :=
  let slot := (slot + probe) % 2 ^ 32
  if cap ≤ slot then slot - cap else slot

def probePath (cap : Nat) (block : UInt32) : List Nat :=
  (List.range cap).map (probeAt cap (block.toNat * 2654435761 % cap))

/-- The arrays of `choose_diverse` while it runs. -/
structure Selection where
  scratch : List UInt32
  baseline : List UInt32
  output : List Nat

/-- The index goes to the output and is marked. -/
def Selection.choose (x : Selection) (index : Nat) : Option Selection :=
  if index < x.baseline.length then
    some { x with output := x.output ++ [index], baseline := x.baseline.set index maxU32 }
  else none

/-- The first loop of `choose_diverse`. -/
def reservePass (s : CfChoice) (order : Option (List Nat)) (reserve : Nat) : List Nat → Selection → Option Selection
  | [], x => some x
  | i :: is, x =>
    if reserve ≤ x.output.length then some x
    else (orderedIndex order i).bind fun index => (s.ipv4Block index).bind fun
      | none => reservePass s order reserve is x
      | some block =>
        (OpenTable.claim maxU32 block (probePath s.cap block) x.scratch).bind fun r =>
          if r.2 then reservePass s order reserve is { x with scratch := r.1 }
          else (Selection.choose { x with scratch := r.1 } index).bind (reservePass s order reserve is)

/-- The second loop of `choose_diverse`. -/
def restPass (s : CfChoice) (order : Option (List Nat)) (keep : Nat) : List Nat → Selection → Option Selection
  | [], x => some x
  | i :: is, x =>
    if keep ≤ x.output.length then some x
    else (orderedIndex order i).bind fun index =>
      if s.n ≤ index then restPass s order keep is x
      else x.baseline[index]?.bind fun mark =>
        if mark = maxU32 then restPass s order keep is x
        else s.records[index]?.bind fun r =>
          if r.hasTls then (x.choose index).bind (restPass s order keep is) else restPass s order keep is x

/-- How many places go to blocks of their own. -/
def reserveOf (keep : Nat) : Nat :=
  min keep (max (keep / 4) 1)

/-- `choose_diverse`: the indices it writes, and the scan it leaves. -/
def chooseDiverse (s : CfChoice) (order : Option (List Nat)) (count keep : Nat) : Option (List Nat × CfChoice) :=
  (reservePass s order (reserveOf keep) (List.range count)
    ⟨List.replicate s.cap maxU32, List.replicate s.cap 0, []⟩).bind fun x =>
  (restPass s order keep (List.range count) x).map fun y =>
    (y.output, { s with selectionScratch := y.scratch,
                        rttBaselineUs := y.output.foldl (fun b index => b.set index 0) y.baseline })

/-- Whether a record can be chosen: in use, and with a TLS classification. -/
def CfChoice.eligible (s : CfChoice) (index : Nat) : Bool :=
  index < s.n && (s.records[index]?).any CfRecord.hasTls

/-- The /24 of an eligible IPv4 record. -/
def CfChoice.blockOf (s : CfChoice) (index : Nat) : Option UInt32 :=
  (s.ipv4Block index).join

/-- The arrays are as large as `cf_scan_init` makes them. -/
structure CfChoice.Sized (s : CfChoice) : Prop where
  records : s.records.length = s.cap
  n : s.n ≤ s.cap
  cap : s.cap < 2 ^ 32

section Probe

variable {cap slot : Nat}

theorem probeAt_lt (hcap : cap < 2 ^ 32) (hslot : slot < cap) {probe : Nat} (hp : probe < cap) :
    probeAt cap slot probe < cap := by
  unfold probeAt
  dsimp only
  split_ifs with h
  · have := Nat.mod_lt (slot + probe) (show 0 < 2 ^ 32 by decide)
    rcases Nat.lt_or_ge (slot + probe) (2 ^ 32) with hlt | hge
    · rw [Nat.mod_eq_of_lt hlt] at h ⊢
      omega
    · omega
  · omega

theorem probePath_lt (hcap : cap < 2 ^ 32) (block : UInt32) : ∀ p ∈ probePath cap block, p < cap := by
  intro p hp
  obtain ⟨probe, hprobe, rfl⟩ := List.mem_map.mp hp
  have hlt := List.mem_range.mp hprobe
  exact probeAt_lt hcap (Nat.mod_lt _ (by omega)) hlt

/-- Probes that all go to slots of their own. -/
theorem le_dedup_length {f : Nat → Nat} {n m : Nat} (lo : Nat) (hle : lo + m ≤ n)
    (hinj : ∀ p q, lo ≤ p → p < lo + m → lo ≤ q → q < lo + m → f p = f q → p = q) :
    m ≤ ((List.range n).map f).dedup.length := by
  have hnodup : ((List.range' lo m).map f).Nodup := by
    refine List.Nodup.map_on ?_ List.nodup_range'
    intro p hp q hq heq
    have hp' := List.mem_range'_1.mp hp
    have hq' := List.mem_range'_1.mp hq
    exact hinj p q hp'.1 hp'.2 hq'.1 hq'.2 heq
  have hsub : (List.range' lo m).map f ⊆ ((List.range n).map f).dedup := by
    intro x hx
    obtain ⟨p, hp, rfl⟩ := List.mem_map.mp hx
    have hp' := List.mem_range'_1.mp hp
    exact List.mem_dedup.mpr (List.mem_map_of_mem (List.mem_range.mpr (by omega)))
  have hlen := (hnodup.subperm hsub).length_le
  rwa [List.length_map, List.length_range'] at hlen

/-- The probes for a block go to all slots, or at least to more than there are blocks: past `2 ^ 32` they go
round again. -/
theorem probePath_distinct (hcap : cap < 2 ^ 32) (block : UInt32) :
    min cap (2 ^ 24) ≤ (probePath cap block).dedup.length := by
  rcases Nat.eq_zero_or_pos cap with rfl | hpos
  · exact Nat.le_trans (Nat.min_le_left _ _) (Nat.zero_le _)
  have hslot : block.toNat * 2654435761 % cap < cap := Nat.mod_lt _ hpos
  unfold probePath
  generalize block.toNat * 2654435761 % cap = slot at hslot
  have hlow : ∀ p, slot + p < 2 ^ 32 → probeAt cap slot p = if cap ≤ slot + p then slot + p - cap else slot + p := by
    intro p hp
    unfold probeAt
    rw [Nat.mod_eq_of_lt hp]
  by_cases hwrap : slot + cap ≤ 2 ^ 32
  · refine Nat.le_trans (Nat.min_le_left _ _) (le_dedup_length 0 (by omega) ?_)
    intro p q _ hp _ hq heq
    rw [hlow p (by omega), hlow q (by omega)] at heq
    split_ifs at heq
    all_goals omega
  refine Nat.le_trans (Nat.min_le_right _ _) ?_
  by_cases hmany : 2 ^ 24 ≤ 2 ^ 32 - slot
  · refine le_dedup_length 0 (by omega) ?_
    intro p q _ hp _ hq heq
    rw [hlow p (by omega), hlow q (by omega)] at heq
    split_ifs at heq
    all_goals omega
  · refine le_dedup_length (2 ^ 32 - slot) (by omega) ?_
    intro p q hp hp' hq hq' heq
    have hhigh : ∀ p, 2 ^ 32 - slot ≤ p → p < 2 ^ 32 - slot + 2 ^ 24 → probeAt cap slot p = slot + p - 2 ^ 32 := by
      intro p hp hp'
      unfold probeAt
      dsimp only
      have hmod : (slot + p) % 2 ^ 32 = slot + p - 2 ^ 32 := by omega
      rw [hmod, if_neg (by omega)]
    rw [hhigh p hp hp', hhigh q hq hq'] at heq
    omega

end Probe

end Qanat
