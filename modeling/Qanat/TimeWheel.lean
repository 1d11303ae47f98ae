import Qanat.General.Dll
import Qanat.General.Transition
import Mathlib.Data.Finset.Card
import Mathlib.Data.Finset.Range
import Mathlib.Algebra.Order.Ring.Nat

namespace Qanat

def twSlots : Nat := 1024

def twTickMs : Nat := 8

def twSpanMs : Nat := twSlots * twTickMs

structure TwNode where
  prev : Option Nat
  next : Option Nat
  deadline : Nat
  slot : Nat
  armed : Bool

/-- The wheel and the memory of its nodes; a node's address is its place in the worker's pool. -/
structure TimeWheel where
  slot : Nat → Option Nat
  node : Nat → TwNode
  now : Nat
  cursor : Nat
  armed : Nat

def TimeWheel.setPrev (w : TimeWheel) (i : Nat) (v : Option Nat) : TimeWheel :=
  { w with node := Function.update w.node i { w.node i with prev := v } }

def TimeWheel.setNext (w : TimeWheel) (i : Nat) (v : Option Nat) : TimeWheel :=
  { w with node := Function.update w.node i { w.node i with next := v } }

def TimeWheel.setSlot (w : TimeWheel) (s : Nat) (v : Option Nat) : TimeWheel :=
  { w with slot := Function.update w.slot s v }

/-- A wheel over a zeroed pool. -/
def twInit (now : Nat) : TimeWheel where
  slot := fun _ => none
  node := fun _ => { prev := none, next := none, deadline := 0, slot := 0, armed := false }
  now := now
  cursor := now / twTickMs
  armed := 0

def twDisarm (w : TimeWheel) (n : Nat) : TimeWheel :=
  if (w.node n).armed then
    let w₁ := match (w.node n).prev with
      | some p => w.setNext p (w.node n).next
      | none => w.setSlot (w.node n).slot (w.node n).next
    let w₂ := match (w₁.node n).next with
      | some q => w₁.setPrev q (w₁.node n).prev
      | none => w₁
    { w₂ with
      node := Function.update w₂.node n { w₂.node n with prev := none, next := none, armed := false }
      armed := (w₂.armed + (2 ^ 32 - 1)) % 2 ^ 32 }
  else w

/-- `UINT64_MAX - now < after ? UINT64_MAX : now + after`. -/
def twDeadline (now after : Nat) : Nat :=
  if 2 ^ 64 - 1 - now < after then 2 ^ 64 - 1 else now + after

/-- Long deadlines are put one revolution short; only a remainder rounds up. -/
def twTick (now after : Nat) : Nat :=
  let wheelDeadline := twDeadline now (if twSpanMs - 2 * twTickMs < after then twSpanMs - 2 * twTickMs else after)
  if wheelDeadline % twTickMs ≠ 0 then wheelDeadline / twTickMs + 1 else wheelDeadline / twTickMs

def twArm (w : TimeWheel) (n now after : Nat) : TimeWheel :=
  let w₀ := if (w.node n).armed then twDisarm w n else w
  let w₁ := if w₀.now < now then { w₀ with now := now } else w₀
  let slot := twTick w₁.now after % twSlots
  let w₂ : TimeWheel := { w₁ with
    node := Function.update w₁.node n
      { prev := none, next := w₁.slot slot, deadline := twDeadline w₁.now after, slot := slot, armed := true } }
  let w₃ := match (w₂.node n).next with
    | some q => w₂.setPrev q (some n)
    | none => w₂
  { w₃.setSlot slot (some n) with armed := (w₃.armed + 1) % 2 ^ 32 }

inductive TwRound
  | again (w : TimeWheel)
  | done (w : TimeWheel) (ret : Option Nat)

/-- One round of the sweep. -/
def twRound (nowTick : Nat) (w : TimeWheel) : TwRound :=
  match w.slot (w.cursor % twSlots) with
  | some n =>
    let w₁ := twDisarm w n
    if w₁.now < (w₁.node n).deadline then
      .again (twArm w₁ n w₁.now (((w₁.node n).deadline - w₁.now) % 2 ^ 32))
    else .done w₁ (some n)
  | none => if nowTick ≤ w.cursor then .done w none else .again { w with cursor := w.cursor + 1 }

/-- The sweep, given up after `fuel` rounds. -/
def twSweep (nowTick : Nat) : Nat → TimeWheel → Option (TimeWheel × Option Nat)
  | 0, _ => none
  | fuel + 1, w =>
    match twRound nowTick w with
    | .again w' => twSweep nowTick fuel w'
    | .done w' ret => some (w', ret)

/-- The clock and the cursor as the sweep finds them. -/
def twEnter (w : TimeWheel) (now : Nat) : TimeWheel :=
  let w₁ := if w.now < now then { w with now := now } else w
  if w₁.cursor + twSlots ≤ w₁.now / twTickMs then
    { w₁ with cursor := w₁.now / twTickMs - (twSlots - 1) }
  else w₁

def twExpire (fuel : Nat) (w : TimeWheel) (now : Nat) : Option (TimeWheel × Option Nat) :=
  twSweep ((twEnter w now).now / twTickMs) fuel (twEnter w now)

/-- The nodes of a slot, read along the forward links. -/
def TimeWheel.list (w : TimeWheel) (s : Nat) : List Nat :=
  Dll.walk (fun n => (w.node n).next) w.armed (w.slot s)

def twSoonest (w : TimeWheel) (nowTick ahead : Nat) : Nat :=
  (List.range ahead).foldl (fun soonest i => (w.list ((nowTick + i) % twSlots)).foldl
    (fun soonest n => if (w.node n).deadline < soonest then (w.node n).deadline else soonest) soonest) (2 ^ 64 - 1)

def twAhead (cap : Nat) : Nat :=
  if twSlots < cap / twTickMs + 2 then twSlots else cap / twTickMs + 2

def twNextTimeout (w : TimeWheel) (now cap : Nat) : Nat :=
  if w.armed = 0 then cap
  else
    let now := if now < w.now then w.now else now
    let nowTick := now / twTickMs
    if w.cursor < nowTick then 0
    else
      let soonest := twSoonest w nowTick (twAhead cap)
      if soonest = 2 ^ 64 - 1 then cap
      else if soonest ≤ now then 0
      else if soonest - now < cap then soonest - now else cap

/-- The calls of a run; an expiry carries what it returned. -/
inductive TwAct
  | arm (n now after : Nat)
  | disarm (n : Nat)
  | expire (now fuel : Nat) (ret : Option Nat)

def twStep (w : TimeWheel) : TwAct → Option TimeWheel
  | .arm n now after => some (twArm w n now after)
  | .disarm n => some (twDisarm w n)
  | .expire now fuel ret =>
    match twExpire fuel w now with
    | some (w', r) => if r = ret then some w' else none
    | none => none

/-- The nodes are those of the worker's pool, the clocks are 64-bit and the timeouts 32-bit values. -/
def TwGuard (nslots : UInt32) (_ : TimeWheel) : TwAct → Prop
  | .arm n now after => n < nslots.toNat ∧ now < 2 ^ 64 ∧ after < 2 ^ 32
  | .disarm n => n < nslots.toNat
  | .expire now _ _ => now < 2 ^ 64

def TwRun (nslots : UInt32) (start : Nat) : List TwAct → TimeWheel → Prop :=
  Transition.Run twStep (TwGuard nslots) (twInit start)

def TwReachable (nslots : UInt32) (start : Nat) : TimeWheel → Prop :=
  Transition.Reach twStep (TwGuard nslots) (twInit start)

end Qanat
