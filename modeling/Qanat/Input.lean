import Qanat.General.Fifo
import Qanat.General.Pulse
import Mathlib.Data.Nat.Basic

namespace Qanat

/-- `QN_INPUT_RING_CAP`. -/
def inputRingCap : Nat := 8192

/-- `QN_INPUT_SEQ_CAP`. -/
def inputSeqCap : Nat := 32

/-- `QN_ESC_DELAY_MS`. -/
def escDelayMs : UInt64 := 30

inductive KeyKind
  | none | char | up | down | left | right | pgup | pgdn | home | end' | enter | esc | tab | backspace | delete | f1
  deriving DecidableEq

/-- `qn_key`. -/
structure Key where
  kind : KeyKind
  ch : Nat
  ctrl : Bool
  paste : Bool
  deriving DecidableEq

/-- A key that is no character. -/
def Key.plain (kind : KeyKind) : Key :=
  ⟨kind, 0, false, false⟩

def Key.char (ch : Nat) (paste : Bool) : Key :=
  ⟨.char, ch, false, paste⟩

inductive InputState
  | ground | esc | csi | ss3 | utf8 | bracketedPaste
  deriving DecidableEq

/-- The ring of `qn_input`. -/
structure InputRing where
  bytes : Vector UInt8 inputRingCap
  head : Nat
  count : Nat
  head_lt : head < inputRingCap
  count_le : count ≤ inputRingCap

/-- The fields of `qn_input` besides the ring; `seq` is what `seq_len` covers. -/
structure InputCore where
  state : InputState
  utf8Need : Nat
  seq : List UInt8
  utf8Paste : Bool
  utf8Value : Nat
  utf8Min : Nat
  escSinceMs : UInt64
  deriving DecidableEq

section Ring

theorem inputRingCap_pos : 0 < inputRingCap := by
  decide

def ringPeek (r : InputRing) (offset : Nat) : UInt8 :=
  r.bytes.get ⟨(r.head + offset) % inputRingCap, Nat.mod_lt _ inputRingCap_pos⟩

def ringPop (r : InputRing) : UInt8 × InputRing :=
  (r.bytes.get ⟨r.head, r.head_lt⟩,
    { r with head := (r.head + 1) % inputRingCap, count := r.count - 1,
             head_lt := Nat.mod_lt _ inputRingCap_pos, count_le := (Nat.sub_le _ _).trans r.count_le })

/-- `qn_input_feed`, and whether it takes the bytes. -/
def ringFeed (r : InputRing) (bytes : List UInt8) : Bool × InputRing :=
  if h : inputRingCap - r.count < bytes.length then (false, r)
  else
    (true, { r with bytes := Circular.write bytes ((r.head + r.count) % inputRingCap) r.bytes,
                    count := r.count + bytes.length,
                    count_le := by have := r.count_le; omega })

def inputFifo : Fifo InputRing UInt8 where
  count := InputRing.count
  peek := ringPeek
  pop := ringPop

end Ring

section Decoder

/-- `emit_ascii`. -/
def emitAscii (byte : UInt8) (paste : Bool) : Key :=
  if byte = 0x0D ∨ byte = 0x0A then ⟨.enter, 0, false, paste⟩
  else if byte = 0x09 then ⟨.tab, 0, false, paste⟩
  else if byte = 0x7F ∨ byte = 0x08 then ⟨.backspace, 0, false, paste⟩
  else if byte < 0x20 then
    if paste then ⟨.char, 0xFFFD, false, paste⟩ else ⟨.char, byte.toNat + 97 - 1, true, paste⟩
  else ⟨.char, byte.toNat, false, paste⟩

variable {ρ : Type} (Q : Fifo ρ UInt8) (nowMs : UInt64)

abbrev Decoding (ρ : Type) := Pulse (InputCore × ρ) Key

/-- `begin_utf8`. -/
def beginUtf8 (c : InputCore) (r : ρ) (byte : UInt8) (paste : Bool) : Decoding ρ :=
  if 0xC2 ≤ byte ∧ byte ≤ 0xDF then
    .again ({ c with utf8Value := (byte &&& 0x1F).toNat, utf8Min := 0x80, utf8Need := 1, utf8Paste := paste,
                     state := .utf8 }, r)
  else if 0xE0 ≤ byte ∧ byte ≤ 0xEF then
    .again ({ c with utf8Value := (byte &&& 0x0F).toNat, utf8Min := 0x800, utf8Need := 2, utf8Paste := paste,
                     state := .utf8 }, r)
  else if 0xF0 ≤ byte ∧ byte ≤ 0xF4 then
    .again ({ c with utf8Value := (byte &&& 0x07).toNat, utf8Min := 0x10000, utf8Need := 3, utf8Paste := paste,
                     state := .utf8 }, r)
  else .emit (.char 0xFFFD paste) (c, r)

/-- `finish_utf8`. -/
def finishUtf8 (c : InputCore) (r : ρ) : Decoding ρ :=
  let ch :=
    if c.utf8Value < c.utf8Min ∨ 0x10FFFF < c.utf8Value ∨ (0xD800 ≤ c.utf8Value ∧ c.utf8Value ≤ 0xDFFF) then 0xFFFD
    else c.utf8Value
  .emit (.char ch c.utf8Paste)
    ({ c with state := if c.utf8Paste then .bracketedPaste else .ground, utf8Need := 0 }, r)

/-- The loop of `csi_first_param`. -/
def csiParam (value : Nat) : List UInt8 → Option Nat
  | [] => some value
  | byte :: t =>
    if byte = 0x3B then some value
    else if byte < 0x30 ∨ 0x39 < byte then none
    else if (0xFFFFFFFF - (byte.toNat - 48)) / 10 < value then none
    else csiParam (value * 10 + (byte.toNat - 48)) t

/-- `csi_first_param`. -/
def csiFirstParam (seq : List UInt8) : Option Nat :=
  csiParam 0 seq.dropLast

/-- The keys that a final byte alone names. -/
def cursorKey (byte : UInt8) : Option KeyKind :=
  if byte = 0x41 then some .up
  else if byte = 0x42 then some .down
  else if byte = 0x43 then some .right
  else if byte = 0x44 then some .left
  else if byte = 0x48 then some .home
  else if byte = 0x46 then some .end'
  else none

/-- The keys of `CSI value ~`. -/
def tildeKey (value : Nat) : Option KeyKind :=
  if value = 1 ∨ value = 7 then some .home
  else if value = 3 then some .delete
  else if value = 4 ∨ value = 8 then some .end'
  else if value = 5 then some .pgup
  else if value = 6 then some .pgdn
  else none

/-- `decode_csi`: the key, and whether a paste starts. -/
def decodeCsi (seq : List UInt8) : Option KeyKind × Bool :=
  match csiFirstParam seq with
  | none => (none, false)
  | some value =>
    let final := seq.getLastD 0
    match cursorKey final with
    | some kind => (some kind, false)
    | none => if final = 0x7E then (tildeKey value, value = 200) else (none, false)

def pasteEnd : List UInt8 := [0x1B, 0x5B, 0x32, 0x30, 0x31, 0x7E]

/-- `paste_end_prefix`: what has come is a beginning of the end sequence, and whether it is all of it. -/
def pasteEndPrefix (r : ρ) : Option Bool :=
  if (List.range (min (Q.count r) pasteEnd.length)).all fun i => Q.peek r i == pasteEnd.getD i 0 then
    some (pasteEnd.length ≤ Q.count r)
  else none

/-- A turn of the inner loop of the state `QN_INPUT_UTF8`, or its end. -/
def utf8Turn (c : InputCore) (r : ρ) : Decoding ρ :=
  if c.utf8Need = 0 then finishUtf8 c r
  else if Q.count r = 0 then .wait
  else
    let byte := Q.peek r 0
    if byte &&& 0xC0 ≠ 0x80 then finishUtf8 { c with utf8Value := 0xFFFD, utf8Need := 0 } r
    else
      .again ({ c with utf8Value := c.utf8Value <<< 6 ||| (byte &&& 0x3F).toNat, utf8Need := c.utf8Need - 1 },
        (Q.pop r).2)

def escTurn (c : InputCore) (r : ρ) : Decoding ρ :=
  if Q.count r = 0 then
    if nowMs - c.escSinceMs < escDelayMs then .wait else .emit (.plain .esc) ({ c with state := .ground }, r)
  else
    let byte := Q.peek r 0
    if byte = 0x5B then .again ({ c with state := .csi, seq := [] }, (Q.pop r).2)
    else if byte = 0x4F then .again ({ c with state := .ss3, seq := [] }, (Q.pop r).2)
    else .emit (.plain .esc) ({ c with state := .ground }, r)

/-- The key behind `ESC O`. -/
def ss3Key (byte : UInt8) : Key :=
  match cursorKey byte with
  | some kind => .plain kind
  | none => if byte = 0x50 then .plain .f1 else .char 0xFFFD false

def csiTurn (c : InputCore) (r : ρ) : Decoding ρ :=
  if Q.count r = 0 then .wait
  else
    let byte := (Q.pop r).1
    let r := (Q.pop r).2
    if inputSeqCap ≤ c.seq.length then .emit (.char 0xFFFD false) ({ c with state := .ground }, r)
    else
      let seq := c.seq ++ [byte]
      if c.state = .ss3 then .emit (ss3Key byte) ({ c with state := .ground, seq := seq }, r)
      else if 0x40 ≤ byte ∧ byte ≤ 0x7E then
        match decodeCsi seq with
        | (some kind, _) => .emit (.plain kind) ({ c with state := .ground, seq := [] }, r)
        | (none, true) => .again ({ c with state := .bracketedPaste, seq := [] }, r)
        | (none, false) => .again ({ c with state := .ground, seq := [] }, r)
      else if byte < 0x20 ∨ 0x3F < byte then .emit (.char 0xFFFD false) ({ c with state := .ground, seq := [] }, r)
      else .again ({ c with seq := seq }, r)

/-- Any byte of a paste that does not belong to its end. -/
def pastedByte (c : InputCore) (r : ρ) : Decoding ρ :=
  let byte := (Q.pop r).1
  let r := (Q.pop r).2
  if byte < 0x80 then .emit (emitAscii (if byte = 0x1B then 0 else byte) true) (c, r)
  else beginUtf8 c r byte true

def pasteTurn (c : InputCore) (r : ρ) : Decoding ρ :=
  if Q.count r = 0 then .wait
  else if Q.peek r 0 = 0x1B then
    match pasteEndPrefix Q r with
    | some false => .wait
    | some true => .again ({ c with state := .ground }, Q.drop 6 r)
    | none => pastedByte Q c r
  else pastedByte Q c r

def groundTurn (c : InputCore) (r : ρ) : Decoding ρ :=
  if Q.count r = 0 then .wait
  else
    let byte := (Q.pop r).1
    let r := (Q.pop r).2
    if byte = 0x1B then .again ({ c with state := .esc, escSinceMs := nowMs }, r)
    else if byte < 0x80 then .emit (emitAscii byte false) (c, r)
    else beginUtf8 c r byte false

/-- A turn of the loop of `qn_input_next`. -/
def inputTurn (p : InputCore × ρ) : Decoding ρ :=
  match p.1.state with
  | .utf8 => utf8Turn Q p.1 p.2
  | .esc => escTurn Q nowMs p.1 p.2
  | .csi => csiTurn Q p.1 p.2
  | .ss3 => csiTurn Q p.1 p.2
  | .bracketedPaste => pasteTurn Q p.1 p.2
  | .ground => groundTurn Q nowMs p.1 p.2

/-- The turns that the loop can make: two for a byte, and one for a state that has to end. -/
def inputFuel (p : InputCore × ρ) : Nat :=
  2 * Q.count p.2 + 2

end Decoder

section Input

/-- `qn_input`. -/
abbrev Input := InputCore × InputRing

/-- `qn_input_init`. -/
def coreInit : InputCore :=
  ⟨.ground, 0, [], false, 0, 0, 0⟩

def inputInit : Input :=
  (coreInit, ⟨Vector.replicate inputRingCap 0, 0, 0, inputRingCap_pos, Nat.zero_le _⟩)

/-- `qn_input_feed`. -/
def inputFeed (i : Input) (bytes : List UInt8) : Bool × Input :=
  ((ringFeed i.2 bytes).1, i.1, (ringFeed i.2 bytes).2)

/-- `qn_input_next`: the key, if there is one. -/
def inputNext (nowMs : UInt64) (i : Input) : Option (Option Key × Input) :=
  Pulse.next (inputTurn inputFifo nowMs) (inputFuel inputFifo i) i

end Input

end Qanat
