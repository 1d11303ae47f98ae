import Qanat.General.Bisect
import Mathlib.Algebra.Order.Ring.Nat

namespace Qanat

/-- `qn_addr`: the family decides which half of the union is meant. -/
inductive Addr
  | v4 (a : UInt32)
  | v6 (b : Vector UInt8 16)
  deriving DecidableEq

/-- `qn_prefix`; its family is that of `net`. -/
structure Prefix where
  net : Addr
  bits : Nat
  count : Nat
  deriving DecidableEq

def v6SpanCap : Nat := 1 <<< 20

def prefixHosts (p : Prefix) : Nat :=
  match p.net with
  | .v4 _ => if 32 < p.bits then 0 else if 32 ≤ p.bits then 1 else 1 <<< (32 - p.bits)
  | .v6 _ =>
    if 128 < p.bits then 0
    else if p.bits = 128 then 1
    else if 20 ≤ 128 - p.bits then v6SpanCap
    else 1 <<< (128 - p.bits)

def prefixHasEdges (p : Prefix) : Bool :=
  match p.net with
  | .v4 _ => p.bits < 31
  | .v6 _ => false

def prefixUsable (p : Prefix) (skipEdges : Bool) : Nat :=
  let n := prefixHosts p
  if n ≠ 0 ∧ skipEdges ∧ prefixHasEdges p then n - 2 else n

/-- The byte `i` of an address cut to its first `bits` bits. -/
def maskByte (bits i : Nat) (x : UInt8) : UInt8 :=
  if i * 8 + 8 ≤ bits then x
  else if bits ≤ i * 8 then 0
  else x &&& (0xFF <<< UInt8.ofNat (8 - (bits - i * 8)))

def maskV6 (b : Vector UInt8 16) (bits : Nat) : Vector UInt8 16 :=
  b.mapIdx fun i x => maskByte bits i x

def maskV4 (bits : Nat) : UInt32 :=
  if bits = 0 then 0 else 0xFFFFFFFF <<< UInt32.ofNat (32 - bits)

structure CidrSet where
  v : List Prefix
  cap : Nat
  cumsum : Option (List Nat)
  total : Nat
  skipEdges : Bool

def cidrSetInit (cap : Nat) (skipEdges : Bool) : CidrSet :=
  ⟨[], cap, none, 0, skipEdges⟩

/-- `qn_cidr_set_add`; `none` is its `false`. -/
def cidrSetAdd (s : CidrSet) (p : Prefix) : Option CidrSet :=
  if s.cap ≤ s.v.length ∨ p.count = 0 ∨ p.count ≠ prefixHosts p then none
  else
    match p.net with
    | .v4 a => if a &&& maskV4 p.bits ≠ a then none else some { s with v := s.v ++ [p] }
    | .v6 b => if maskV6 b p.bits ≠ b then none else some { s with v := s.v ++ [p] }

def memcmp : List UInt8 → List UInt8 → Ordering
  | x :: xs, y :: ys => if x < y then .lt else if y < x then .gt else memcmp xs ys
  | _, _ => .eq

def prefixCmp (a b : Prefix) : Ordering :=
  match a.net, b.net with
  | .v4 _, .v6 _ => .lt
  | .v6 _, .v4 _ => .gt
  | .v4 x, .v4 y => if x < y then .lt else if y < x then .gt else compare a.bits b.bits
  | .v6 x, .v6 y =>
    match memcmp x.toList y.toList with
    | .eq => compare a.bits b.bits
    | c => c

def bitV6 (b : Vector UInt8 16) (bit : Nat) : UInt8 :=
  (b.toList.getD (bit >>> 3) 0) &&& (0x80 >>> UInt8.ofNat (bit &&& 7))

def prefixContains (outer inner : Prefix) : Bool :=
  match outer.net, inner.net with
  | .v4 x, .v4 y => outer.bits ≤ inner.bits && y &&& maskV4 outer.bits == x
  | .v6 x, .v6 y => outer.bits ≤ inner.bits && (List.range outer.bits).all fun bit => bitV6 x bit == bitV6 y bit
  | _, _ => false

def mergeSiblings (a b : Prefix) : Option Prefix :=
  if a.bits = 0 ∨ a.bits ≠ b.bits then none
  else
    match a.net, b.net with
    | .v4 x, .v4 y =>
      let block := 1 <<< (32 - a.bits)
      if x.toNat + block ≠ y.toNat ∨ x.toNat % (block * 2) ≠ 0 then none
      else
        let out : Prefix := ⟨.v4 x, a.bits - 1, 0⟩
        some { out with count := prefixHosts out }
    | .v6 x, .v6 y =>
      if 20 ≤ 128 - a.bits then none
      else
        let px := maskV6 x (a.bits - 1)
        let py := maskV6 y (b.bits - 1)
        if x = y ∨ px ≠ py then none
        else
          let out : Prefix := ⟨.v6 px, a.bits - 1, 0⟩
          some { out with count := prefixHosts out }
    | _, _ => none

/-- Whether the last prefix written out contains `cur`; the output is kept last one first. -/
def topContains (out : List Prefix) (cur : Prefix) : Bool :=
  match out with
  | [] => false
  | top :: _ => prefixContains top cur

/-- The merging loop of `normalize_prefixes`. -/
def mergeDown (skipEdges : Bool) : List Prefix → Prefix → List Prefix × Prefix
  | [], cur => ([], cur)
  | top :: rest, cur =>
    if skipEdges then (top :: rest, cur)
    else
      match mergeSiblings top cur with
      | none => (top :: rest, cur)
      | some merged => if topContains rest merged then (rest, merged) else mergeDown skipEdges rest merged

def normalizeStep (skipEdges : Bool) (out : List Prefix) (cur : Prefix) : List Prefix :=
  if topContains out cur then out
  else
    let (out, cur) := mergeDown skipEdges out cur
    if topContains out cur then out else cur :: out

def prefixLe (a b : Prefix) : Bool :=
  prefixCmp a b ≠ .gt

/-- `normalize_prefixes` on the array, with `qsort` as a merge sort: prefixes that compare equal are
equal. -/
def normalizePrefixes (skipEdges : Bool) (v : List Prefix) : List Prefix :=
  ((v.mergeSort prefixLe).foldl (normalizeStep skipEdges) []).reverse

/-- The cumulative sums of `qn_cidr_set_seal`; `none` is the overflow of `acc`. -/
def cumsumFrom (skipEdges : Bool) : Nat → List Prefix → Option (List Nat × Nat)
  | acc, [] => some ([], acc)
  | acc, p :: v =>
    if 2 ^ 64 - 1 - acc < prefixUsable p skipEdges then none
    else
      match cumsumFrom skipEdges (acc + prefixUsable p skipEdges) v with
      | none => none
      | some (sums, total) => some ((acc + prefixUsable p skipEdges) :: sums, total)

/-- `qn_cidr_set_seal`, its array allocated. After an overflow the total is zero and no sum is ever
read. -/
def cidrSetSeal (s : CidrSet) : CidrSet :=
  let v := normalizePrefixes s.skipEdges s.v
  match cumsumFrom s.skipEdges 0 v with
  | none => { s with v := v, cumsum := some [], total := 0 }
  | some (sums, total) => { s with v := v, cumsum := some sums, total := total }

/-- The carry loop at the end of `qn_cidr_set_nth`, from the last byte to the first. -/
def addCarry : List UInt8 → Nat → List UInt8
  | [], _ => []
  | x :: xs, idx =>
    if idx = 0 then x :: xs
    else
      let sum := x.toNat + idx % 256
      UInt8.ofNat sum :: addCarry xs ((idx >>> 8) + (sum >>> 8))

theorem addCarry_length (l : List UInt8) (idx : Nat) : (addCarry l idx).length = l.length := by
  induction l generalizing idx with
  | nil => rfl
  | cons x xs ih =>
    unfold addCarry
    split
    next => rfl
    next => simp [ih]

def addV6 (b : Vector UInt8 16) (idx : Nat) : Vector UInt8 16 :=
  ⟨(addCarry b.toList.reverse idx).reverse.toArray, by simp [addCarry_length]⟩

/-- The address with offset `idx` in a prefix of the set. -/
def prefixNth (skipEdges : Bool) (p : Prefix) (idx : Nat) : Addr :=
  match p.net with
  | .v4 a => .v4 (a + UInt32.ofNat idx + if skipEdges && prefixHasEdges p then 1 else 0)
  | .v6 b => .v6 (addV6 b idx)

def cidrSetNth (s : CidrSet) (idx : Nat) : Option Addr :=
  match s.cumsum with
  | none => none
  | some sums =>
    if s.total ≤ idx then none
    else
      match Bisect.search (fun mid => sums[mid]?.map (decide <| idx < ·)) s.v.length 0 (s.v.length - 1) with
      | none => none
      | some lo =>
        match s.v[lo]? with
        | none => none
        | some p => some (prefixNth s.skipEdges p (idx - if lo = 0 then 0 else sums.getD (lo - 1) 0))

end Qanat
