import Qanat.Perm
import Qanat.General.Bisect

namespace Qanat

/-- `qn_block`: the atomic counters of one address block, wrapping at 32 bits. -/
structure Block where
  alpha : UInt32
  beta : UInt32
  drawn : UInt32

structure Bandit where
  b : Nat → Block
  n : Nat
  span : Nat
  total : Nat
  seed : UInt64
  blockOrder : Perm
  exploreOrder : Perm
  explore : Nat
  probe : Nat
  exploreTotal : Nat
  exactExplore : Bool
  issued : Nat

def maxBlocks : Nat := 65536

def banditShape (total requestedSpan : Nat) : Option (Nat × Nat) :=
  if total = 0 ∨ requestedSpan = 0 then none
  else
    let needSpan := total / maxBlocks + if total % maxBlocks ≠ 0 then 1 else 0
    if 0xFFFFFFFF < needSpan then none
    else
      let span := max requestedSpan needSpan
      let count := total / span + if total % span ≠ 0 then 1 else 0
      if count = 0 ∨ maxBlocks < count then none else some (span, count)

def gcd32 (a b : Nat) : Nat :=
  if b = 0 then a else gcd32 b (a % b)
termination_by b
decreasing_by exact Nat.mod_lt _ (Nat.pos_of_ne_zero ‹_›)

/-- The loop of `block_perm` that moves on to a multiplier coprime to the span. -/
def coprimeFrom (span : Nat) : Nat → Nat → Nat
  | 0, a => a
  | fuel + 1, a =>
    if gcd32 a span ≠ 1 then coprimeFrom span fuel (if a + 1 = span then 1 else a + 1) else a

def blockPerm (c span : Nat) (key : UInt64) : Nat :=
  if span < 2 then 0
  else
    let a := (mix64 (key ^^^ 0xA24BAED4963EE407)).toNat % span
    let a := coprimeFrom span span (if a = 0 then 1 else a)
    let b := (mix64 (key ^^^ 0x9FB21C651E98DF25)).toNat % span
    (a * c + b) % span

def isqrtBit : Nat → Nat → Nat → Nat
  | 0, bit, _ => bit
  | fuel + 1, bit, v => if v < bit then isqrtBit fuel (bit >>> 2) v else bit

def isqrtLoop : Nat → Nat → Nat → Nat → Nat
  | 0, _, r, _ => r
  | fuel + 1, bit, r, v =>
    if bit = 0 then r
    else if r + bit ≤ v then isqrtLoop fuel (bit >>> 2) ((r >>> 1) + bit) (v - (r + bit))
    else isqrtLoop fuel (bit >>> 2) (r >>> 1) v

/-- `isqrt32`; sixteen shifts by two take the starting bit to zero. -/
def isqrt32 (v : Nat) : Nat :=
  isqrtLoop 17 (isqrtBit 17 (1 <<< 30) v) 0 v

def irwinHall : Nat → UInt64 → Int → UInt64 × Int
  | 0, rng, z => (rng, z)
  | i + 1, rng, z => irwinHall i (mix64 rng) (z + ((mix64 rng).toNat &&& 0xFFFF : Nat))

/-- `thompson_score` with its `Q` of 16. `none` is the division by `n = 0`. -/
def thompsonScore (a b : UInt32) (rng : UInt64) : Option (Int × UInt64) :=
  let n := a.toNat + b.toNat
  if n = 0 then none
  else
    let mu := (a.toNat <<< 16) / n % 2 ^ 32
    let var := (mu * (2 ^ 16 - mu)) >>> 16 % 2 ^ 32
    let var := var / (n + 1) % 2 ^ 32
    let sigma := isqrt32 ((var <<< 16) % 2 ^ 32)
    let (rng, z) := irwinHall 12 rng 0
    some (mu + (sigma * (z - 12 * 32768)) / 2 ^ 16, rng)

/-- `qn_bandit_init` with its block array allocated. -/
def banditInit (total span explore : Nat) (seed : UInt64) : Option Bandit :=
  match banditShape total span with
  | none => none
  | some (actualSpan, blocks) =>
    some
      { b := fun _ => ⟨1, 1, 0⟩
        n := blocks
        span := actualSpan
        total := total
        seed := seed
        blockOrder := permInit blocks (mix64 (seed ^^^ 0xA5A5))
        exploreOrder := ⟨0, 0, 0, 0, [0, 0, 0, 0]⟩
        explore := if explore = 0 then 2 else explore
        probe := 48
        exploreTotal := 0
        exactExplore := false
        issued := 0 }

def blockSpan (t : Bandit) (blk : Nat) : Nat :=
  let left := t.total - blk * t.span
  if left < t.span then left else t.span

def blockKey (t : Bandit) (blk : Nat) : UInt64 :=
  mix64 (t.seed ^^^ UInt64.ofNat blk)

def mulDivLoop (a b d : Nat) : Nat → Nat → Nat → Option Nat
  | 0, q, _ => some q
  | bit + 1, q, r =>
    if (2 ^ 64 - 1) / 2 < q then none
    else
      let q' := if d - r ≤ r then q * 2 + 1 else q * 2
      let r' := if d - r ≤ r then r - (d - r) else r * 2
      if (b >>> bit) &&& 1 ≠ 0 then
        if d - a ≤ r' then
          if q' = 2 ^ 64 - 1 then none else mulDivLoop a b d bit (q' + 1) (r' - (d - a))
        else mulDivLoop a b d bit q' (r' + a)
      else mulDivLoop a b d bit q' r'

def mulDivFloor (a b d : Nat) : Option Nat :=
  if d = 0 ∨ d < a ∨ d < b then none else mulDivLoop a b d 64 0 0

def blockCapacityPrefix (t : Bandit) (blocks : Nat) : Nat :=
  if blocks = 0 then 0 else min (blocks * t.span) t.total

def exploreQuotaPrefix (t : Bandit) (blocks : Nat) : Option Nat :=
  let capacity := blockCapacityPrefix t blocks
  if blocks = 0 then some 0
  else if t.n ≤ blocks then some t.exploreTotal
  else if t.n ≤ t.exploreTotal then
    if t.total - t.n = 0 then some blocks
    else (mulDivFloor (t.exploreTotal - t.n) (capacity - blocks) (t.total - t.n)).map (blocks + ·)
  else mulDivFloor t.exploreTotal capacity t.total

def Bandit.setDrawn (t : Bandit) (blk : Nat) (v : UInt32) : Bandit :=
  { t with b := fun i => if i = blk then { t.b i with drawn := v } else t.b i }

/-- The loop of `qn_bandit_set_explore_total`: `left` blocks still to be given their quota. -/
def setQuotas : Nat → Nat → Nat → Bandit → Option (Nat × Bandit)
  | 0, _, previous, t => some (previous, t)
  | left + 1, block, previous, t =>
    match exploreQuotaPrefix t (block + 1) with
    | none => none
    | some cumulative =>
      if cumulative < previous ∨ blockSpan t block < cumulative - previous then none
      else setQuotas left (block + 1) cumulative (t.setDrawn block (UInt32.ofNat (cumulative - previous)))

/-- `qn_bandit_set_explore_total`; `none` is its `false`. -/
def banditSetExploreTotal (t : Bandit) (exploreTotal : Nat) : Option Bandit :=
  if t.total < exploreTotal ∨ t.issued ≠ 0 then none
  else
    let t' := { t with
      exploreTotal := exploreTotal
      exactExplore := true
      exploreOrder := permInit exploreTotal (mix64 (t.seed ^^^ 0x5354524154494659)) }
    match setQuotas t.n 0 0 t' with
    | none => none
    | some (previous, t'') => if previous = exploreTotal then some t'' else none

def exactExploreNext (t : Bandit) (step : Nat) : Option Nat :=
  let mapped := permApply t.exploreOrder step
  match Bisect.search (fun mid => (exploreQuotaPrefix t (mid + 1)).map (decide <| mapped < ·)) t.n 0 t.n with
  | none => none
  | some lo =>
    if t.n ≤ lo then none
    else
      match exploreQuotaPrefix t lo with
      | none => none
      | some previous =>
        if blockSpan t lo ≤ mapped - previous then none
        else some (lo * t.span + blockPerm (mapped - previous) (blockSpan t lo) (blockKey t lo))

end Qanat
