import Mathlib.Algebra.Order.Ring.Nat
import Mathlib.Data.List.Basic

namespace Qanat

/-- A word of 32 bits that a computation leaves behind. -/
def u32 (n : Nat) : Nat :=
  n % 2 ^ 32

/-- A difference of 64-bit words. -/
def sub64 (a b : Nat) : Nat :=
  (a + 2 ^ 64 - b) % 2 ^ 64

/-- `QN_CLAMP`. -/
def clamp (v lo hi : Nat) : Nat :=
  min (max v lo) hi

def deadlineFloorMax : Nat := 120

/-- `qn_aimd`. -/
structure Aimd where
  window : Nat
  wmin : Nat
  wmax : Nat
  okRun : Nat
  batchN : Nat
  batchTimeouts : Nat
  rttBaseUs : Nat
  rttEwmaUs : Nat
  okSamples : Nat
  deadlineMs : Nat
  deadlineFloorMs : Nat
  lastCutMs : Nat
  cuts : Nat
  deriving DecidableEq, Repr

/-- `aimd_init`. -/
def aimdInit (start wmax timeoutMs : Nat) : Aimd :=
  let wmax := max wmax 1
  let wmin := min 16 wmax
  ⟨clamp start wmin wmax, wmin, wmax, 0, 0, 0, 0, 0, 0, timeoutMs, min deadlineFloorMax timeoutMs, 0, 0⟩

/-- `aimd_retune_deadline`. -/
def aimdRetuneDeadline (a : Aimd) (ceilingMs : Nat) : Aimd :=
  if a.okSamples < 16 then a
  else
    let want := max (u32 (a.rttBaseUs / 1000 * 6)) (u32 (a.rttEwmaUs / 1000 * 3))
    { a with deadlineMs := clamp want a.deadlineFloorMs ceilingMs }

/-- Whether `aimd_cut` cuts. -/
def cutDue (a : Aimd) (nowMs : Nat) : Prop :=
  200 ≤ sub64 nowMs a.lastCutMs

instance (a : Aimd) (nowMs : Nat) : Decidable (cutDue a nowMs) :=
  inferInstanceAs (Decidable (_ ≤ _))

/-- `aimd_cut`. -/
def aimdCut (a : Aimd) (num den nowMs : Nat) : Aimd :=
  if cutDue a nowMs then
    { a with window := max a.wmin (u32 (a.window * num) / den), lastCutMs := nowMs, okRun := 0, batchN := 0,
             batchTimeouts := 0, cuts := (a.cuts + 1) % 2 ^ 64 }
  else a

/-- `aimd_pressure`. -/
def aimdPressure (a : Aimd) (nowMs : Nat) : Aimd :=
  { a with window := max a.wmin (u32 (a.window * 3) / 5), lastCutMs := nowMs, cuts := (a.cuts + 1) % 2 ^ 64 }

/-- What `aimd_sample` does with a measured round trip before it retunes the deadline. -/
def aimdLearn (a : Aimd) (rttUs : Nat) : Aimd :=
  { a with
      rttEwmaUs := if a.rttEwmaUs ≠ 0 then u32 (u32 (a.rttEwmaUs * 7) + rttUs) / 8 else rttUs
      rttBaseUs := if a.rttBaseUs = 0 ∨ rttUs < a.rttBaseUs then rttUs else a.rttBaseUs
      okSamples := if a.okSamples < 0xFFFF then a.okSamples + 1 else a.okSamples }

/-- The first half of `aimd_sample`. -/
def aimdCount (a : Aimd) (rttUs : Nat) (timedOut : Bool) (ceilingMs : Nat) : Aimd :=
  let a := { a with batchN := u32 (a.batchN + 1) }
  if timedOut then { a with batchTimeouts := u32 (a.batchTimeouts + 1) }
  else if rttUs ≠ 0 then aimdRetuneDeadline (aimdLearn a rttUs) ceilingMs
  else a

/-- The ratio by which a whole batch of samples asks for a cut. -/
def congestion (a : Aimd) : Option (Nat × Nat) :=
  if a.batchN < u32 (a.batchTimeouts * 4) then some (4, 5)
  else if a.rttBaseUs ≠ 0 ∧ u32 (a.rttBaseUs * 2) < a.rttEwmaUs then some (9, 10)
  else none

def Aimd.newBatch (a : Aimd) : Aimd :=
  { a with batchN := 0, batchTimeouts := 0 }

/-- A batch without congestion in `aimd_sample`. -/
def aimdGrow (a : Aimd) : Aimd :=
  { a with window := min a.wmax (u32 (u32 (a.window + 1) + a.window / 32)), okRun := u32 (a.okRun + 1) }

/-- The end of a batch in `aimd_sample`. -/
def aimdBatch (a : Aimd) (nowMs : Nat) : Aimd :=
  match congestion a with
  | some (num, den) => (aimdCut a num den nowMs).newBatch
  | none => (aimdGrow a).newBatch

/-- `aimd_sample`. -/
def aimdSample (a : Aimd) (rttUs : Nat) (timedOut : Bool) (nowMs ceilingMs : Nat) : Aimd :=
  let a := aimdCount a rttUs timedOut ceilingMs
  if a.batchN < a.window then a else aimdBatch a nowMs

/-- `effective_window`. -/
def effectiveWindow (a : Aimd) (thermalPct : Nat) : Nat :=
  min a.window (clamp (u32 (a.wmax * thermalPct / 100)) a.wmin a.wmax)

/-- A call that changes the window, at a time of the clock. -/
inductive AimdCall
  | sample (rttUs : Nat) (timedOut : Bool)
  | cut (num den : Nat)
  | pressure
  deriving DecidableEq, Repr

def aimdCall (ceilingMs : Nat) (a : Aimd) (nowMs : Nat) : AimdCall → Aimd
  | .sample rttUs timedOut => aimdSample a rttUs timedOut nowMs ceilingMs
  | .cut num den => aimdCut a num den nowMs
  | .pressure => aimdPressure a nowMs

/-- The round trips that a call measures. -/
def AimdCall.measured : AimdCall → List Nat
  | .sample rttUs false => if rttUs = 0 then [] else [rttUs]
  | _ => []

/-- The ratio that a call hands to `aimd_cut`. -/
def cutAsked (ceilingMs : Nat) (a : Aimd) : AimdCall → Option (Nat × Nat)
  | .sample rttUs timedOut =>
    let a := aimdCount a rttUs timedOut ceilingMs
    if a.batchN < a.window then none else congestion a
  | .cut num den => some (num, den)
  | .pressure => none

/-- The products that the functions form, before any of them is cut down to 32 bits. -/
def aimdProducts (ceilingMs : Nat) (a : Aimd) : AimdCall → List Nat
  | .sample rttUs timedOut =>
    let b := aimdCount a rttUs timedOut ceilingMs
    [a.rttEwmaUs * 7, a.rttEwmaUs * 7 + rttUs, b.rttBaseUs / 1000 * 6, b.rttEwmaUs / 1000 * 3, b.batchTimeouts * 4,
     b.rttBaseUs * 2, b.window * 4, b.window * 9]
  | .cut num _ => [a.window * num]
  | .pressure => [a.window * 3]

/-- A window behind a run of calls, with what the calls measured, the times of the cuts and the products. -/
structure AimdRun where
  state : Aimd
  measured : List Nat
  cutTimes : List Nat
  products : List Nat

def AimdRun.call (ceilingMs : Nat) (r : AimdRun) (t : Nat × AimdCall) : AimdRun :=
  { state := aimdCall ceilingMs r.state t.1 t.2
    measured := r.measured ++ t.2.measured
    cutTimes := r.cutTimes ++ if (cutAsked ceilingMs r.state t.2).isSome ∧ cutDue r.state t.1 then [t.1] else []
    products := r.products ++ aimdProducts ceilingMs r.state t.2 }

def aimdRun (start wmax timeoutMs : Nat) (calls : List (Nat × AimdCall)) : AimdRun :=
  calls.foldl (AimdRun.call timeoutMs) ⟨aimdInit start wmax timeoutMs, [], [], []⟩

/-- The ratios that the program cuts by. -/
def cutRatios : List (Nat × Nat) :=
  [(4, 5), (9, 10)]

def rttMaxUs : Nat := 60000000

def AimdCall.Legal : AimdCall → Prop
  | .sample rttUs _ => rttUs ≤ rttMaxUs
  | .cut num den => (num, den) ∈ cutRatios
  | .pressure => True

end Qanat
