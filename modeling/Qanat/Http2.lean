import Qanat.Hpack
import Qanat.General.Rounds
import Qanat.General.Slots

namespace Qanat

/-- `qn_h2_rc`; the feed never returns `QN_H2_UNSUPPORTED`. -/
inductive H2Rc
  | ok
  | protocol
  | space
  deriving DecidableEq, Repr

def h2Data : Nat := 0

def h2Headers : Nat := 1

def h2RstStream : Nat := 3

def h2Settings : Nat := 4

def h2PushPromise : Nat := 5

def h2Ping : Nat := 6

def h2Goaway : Nat := 7

def h2WindowUpdate : Nat := 8

def h2Continuation : Nat := 9

def h2EndStream : Nat := 1

def h2Ack : Nat := 1

def h2EndHeaders : Nat := 4

def h2Padded : Nat := 8

def h2Priority : Nat := 32

def h2MaxFrameIn : Nat := 16384

def h2WindowStep : Nat := h2MaxFrameIn

def h2HeaderBlockMax : Nat := 8192

def h2TraceLineMax : Nat := 64

def h2MaxStreams : Nat := 4

def h2EventStreams : Nat := 4

def h2ControlMax : Nat := 128

def h2ScratchMax : Nat := 64

def h2MaxIncrement : Nat := 0x7FFFFFFF

def hasFlag (flags mask : Nat) : Bool :=
  flags &&& mask ≠ 0

def rd32 (p : Bytes) : Nat :=
  byteAt p 0 * 16777216 + byteAt p 1 * 65536 + byteAt p 2 * 256 + byteAt p 3

/-- A frame the parser has to send. -/
structure H2Out where
  type : Nat
  flags : Nat
  stream : Nat
  payload : Bytes
  deriving DecidableEq, Repr

/-- `frame`. -/
def H2Out.encode (f : H2Out) : Bytes :=
  wireBytes 3 f.payload.length ++ [UInt8.ofNat f.type, UInt8.ofNat f.flags] ++
    wireBytes 4 (f.stream % 2 ^ 31) ++ f.payload

/-- The bytes that frames take on the wire. -/
def outSize (fs : List H2Out) : Nat :=
  (fs.map fun f => 9 + f.payload.length).sum

/-- `qn_h2_stream_state`. -/
inductive H2StreamState
  | idle
  | opened
  | headers
  | closed
  deriving DecidableEq, Repr

structure H2Stream where
  id : Nat
  state : H2StreamState
  headDone : Bool
  deriving DecidableEq, Repr

structure H2Flow where
  streamId : Nat
  consumed : Nat
  deriving DecidableEq, Repr

structure H2Trace where
  streamId : Nat
  line : Bytes
  lineOverflow : Bool
  deriving DecidableEq, Repr

/-- The frame whose header has been read. -/
structure H2Frame where
  type : Nat
  flags : Nat
  len : Nat
  got : Nat
  streamId : Nat
  padLen : Nat
  dataStart : Nat
  dataEnd : Nat
  deriving DecidableEq, Repr

/-- The header block that is being collected. -/
structure H2Block where
  bytes : Bytes
  stream : Nat
  isOpen : Bool
  endStream : Bool
  deriving DecidableEq, Repr

/-- `qn_h2`; the tables hold the entries in use, the buffers the bytes in use. -/
structure H2 where
  hdr : Bytes
  frame : H2Frame
  control : List H2Out
  scratch : Bytes
  setting : Bytes
  block : H2Block
  trace : List H2Trace
  connConsumed : Nat
  flow : List H2Flow
  streams : List H2Stream
  deriving DecidableEq, Repr

/-- `qn_h2_init`. -/
def H2.init : H2 :=
  ⟨[], ⟨0, 0, 0, 0, 0, 0, 0, 0⟩, [], List.replicate h2ScratchMax 0, [], ⟨[], 0, false, false⟩, [], 0, [], []⟩

/-- `qn_h2_event`. -/
structure H2Event where
  goaway : Bool
  streams : List HttpEvent
  deriving DecidableEq

def H2Event.empty : H2Event :=
  ⟨false, []⟩

/-- A fact in the order in which it is written into the events. -/
inductive H2Fact
  | informational (status : Nat) (block : Bytes)
  | headers (status : Nat) (block : Bytes)
  | body (n : Nat)
  | trailers
  | done
  | reset
  deriving DecidableEq, Repr

/-- A parser inside a call: the event, the facts behind it, and the octets of DATA frames it has consumed. -/
structure H2Work where
  h : H2
  ev : H2Event
  facts : List (Nat × H2Fact)
  octets : List (Nat × Nat)
  deriving DecidableEq

/-- The stream a `stream_index` finds. -/
def H2.streamOf (h : H2) (sid : Nat) : Option H2Stream :=
  Slots.find H2Stream.id sid h.streams

/-- The place of a stream, counted from one; zero where it is not there. -/
def H2.streamPlace (h : H2) (sid : Nat) : Nat :=
  match h.streams.findIdx? (·.id = sid) with
  | some i => i + 1
  | none => 0

/-- `qn_h2_open_stream`. -/
def H2.openStream (h : H2) (sid : Nat) : Bool × H2 :=
  if sid = 0 ∨ sid % 2 = 0 ∨ h2MaxStreams ≤ h.streams.length ∨ (h.streamOf sid).isSome then (false, h)
  else (true, { h with streams := h.streams ++ [⟨sid, .opened, false⟩] })

/-- A change of the stream a `stream_index` finds. -/
def H2.setStream (h : H2) (sid : Nat) (f : H2Stream → H2Stream) : H2 :=
  { h with streams := ((Slots.alter H2Stream.id ⟨sid, .idle, false⟩ f sid 0 h.streams).getD h.streams) }

/-- What is written into the event that `stream_event` finds or makes. -/
def report (h : H2) (ev : H2Event) (sid : Nat) (f : HttpEvent → HttpEvent) : Option H2Event :=
  (Slots.alter HttpEvent.streamId { HttpEvent.empty with streamId := sid, responseIndex := h.streamPlace sid } f sid
    h2EventStreams ev.streams).map fun l => { ev with streams := l }

section Trace

variable (pton : Bytes → Bool)

/-- `take_trace_line`. -/
def takeTraceLine (line : Bytes) (ev : HttpEvent) : HttpEvent :=
  if h2TraceLineMax < line.length then ev
  else
    let tb := httpTraceParse pton (line ++ [chLf])
    if tb.1 ∧ tb.2.haveColo then (ev.edge tb.2.colo).flag .traceColo else ev

/-- What `scan_trace` does to the line of a stream. -/
def traceByte (t : H2Trace) (c : UInt8) : H2Trace :=
  if c = chLf then { t with line := [], lineOverflow := false }
  else if t.line.length < h2TraceLineMax then { t with line := t.line ++ [c] }
  else { t with lineOverflow := true }

/-- What `scan_trace` does to the event of a stream. -/
def traceEvents (t : H2Trace) : Bytes → HttpEvent → HttpEvent
  | [], ev => ev
  | c :: p, ev =>
    traceEvents (traceByte t c) p (if c = chLf ∧ !t.lineOverflow then takeTraceLine pton t.line ev else ev)

end Trace

/-- `emit_ack`. -/
def emitAck (h : H2) (type : Nat) (payload : Bytes) : Option H2 :=
  if h2ControlMax - outSize h.control < 9 + payload.length then none
  else some { h with control := h.control ++ [⟨type, h2Ack, 0, payload⟩] }

/-- `credit_worth_publishing`. -/
def creditWorthPublishing (h : H2) (force : Bool) : Bool :=
  if force then h.connConsumed ≠ 0 || h.flow.any (·.consumed ≠ 0)
  else h2WindowStep ≤ h.connConsumed || h.flow.any (h2WindowStep ≤ ·.consumed)

def windowUpdate (sid n : Nat) : H2Out :=
  ⟨h2WindowUpdate, 0, sid % 2 ^ 31, wireBytes 4 n⟩

/-- The window updates for all credit that is outstanding. -/
def pendingUpdates (h : H2) : List H2Out :=
  ((⟨0, h.connConsumed⟩ :: h.flow).filter (·.consumed ≠ 0)).map fun f => windowUpdate f.streamId f.consumed

/-- `replenish_windows`. -/
def replenishWindows (h : H2) (externalCap : Nat) (force : Bool) : H2 × H2Rc :=
  let pending := pendingUpdates h
  if !creditWorthPublishing h force then (h, .ok)
  else if h2MaxIncrement < h.connConsumed ∨ h.flow.any (h2MaxIncrement < ·.consumed) then (h, .space)
  else if h2ControlMax - outSize h.control < outSize pending ∨ externalCap < outSize h.control ∨
      externalCap - outSize h.control < outSize pending then (h, .space)
  else
    ({ h with control := h.control ++ pending, connConsumed := 0,
              flow := h.flow.map fun f => { f with consumed := 0 } }, .ok)

/-- The fields of a frame header. -/
def readHeader (hdr : Bytes) : H2Frame :=
  let type := byteAt hdr 3
  let flags := byteAt hdr 4
  let padded := (type = h2Data ∨ type = h2Headers ∨ type = h2PushPromise) ∧ hasFlag flags h2Padded
  { type := type
    flags := flags
    len := rd24 hdr
    got := 0
    streamId := rd32 (hdr.drop 5) % 2 ^ 31
    padLen := 0
    dataStart := (if padded then 1 else 0) + (if type = h2Headers ∧ hasFlag flags h2Priority then 5 else 0) +
      (if type = h2PushPromise then 4 else 0)
    dataEnd := rd24 hdr }

/-- Whether a frame is one that belongs to a stream. -/
def onStream (type : Nat) : Bool :=
  type = h2Data || type = h2Headers || type = h2Continuation || type = h2RstStream || type = h2PushPromise

/-- What `begin_frame` refuses. -/
def frameRefused (h : H2) (f : H2Frame) : Bool :=
  h2MaxFrameIn < f.len || f.len < f.dataStart ||
  (f.type = h2Data && f.streamId = 0) ||
  (h.block.isOpen && f.type ≠ h2Continuation) ||
  (f.type = h2Continuation && (!h.block.isOpen || f.streamId ≠ h.block.stream)) ||
  (f.streamId ≠ 0 && onStream f.type &&
    match h.streamOf f.streamId with
    | none => true
    | some s => s.state = .idle || s.state = .closed || (f.type = h2Data && !s.headDone))

/-- `begin_frame`. -/
def beginFrame (h : H2) : H2 × H2Rc :=
  let f := readHeader h.hdr
  let h' := { h with frame := f, setting := if f.type = h2Settings then [] else h.setting }
  (h', if frameRefused h f then .protocol else .ok)

/-- `check_setting`. -/
def checkSetting (s : Bytes) : Bool :=
  let id := rd16 s
  let v := rd32 (s.drop 2)
  if id = 2 then v ≤ 1
  else if id = 4 then v ≤ 0x7FFFFFFF
  else if id = 5 then 16384 ≤ v && v ≤ 16777215
  else true

/-- The bytes of a SETTINGS payload, six to an entry. -/
def takeSettings : Bytes → Bytes → Bytes × Bool
  | acc, [] => (acc, true)
  | acc, c :: t =>
    if acc.length + 1 = 6 then
      if checkSetting (acc ++ [c]) then takeSettings [] t else ([], false)
    else takeSettings (acc ++ [c]) t

/-- Bytes written into a buffer from a place on. -/
def writeAt (buf : Bytes) (place : Nat) (p : Bytes) : Bytes :=
  buf.take place ++ p ++ buf.drop (place + p.length)

/-- The part of a payload between the padding, for the bytes that come next in their frame. -/
def dataPart (f : H2Frame) (p : Bytes) : Bytes :=
  let lo := max f.got f.dataStart
  let hi := min (f.got + p.length) f.dataEnd
  (p.take (hi - f.got)).drop (lo - f.got)

/-- The pad length at the front of a padded frame. -/
def readPad (f : H2Frame) (p : Bytes) : H2Frame × Bool :=
  if f.dataStart ≠ 0 ∧ hasFlag f.flags h2Padded ∧ f.got = 0 ∧ p ≠ [] then
    let pad := byteAt p 0
    if f.len - f.dataStart < pad then ({ f with padLen := pad }, false)
    else ({ f with padLen := pad, dataEnd := f.len - pad }, true)
  else (f, true)

/-- The credit that octets of a DATA frame use up. -/
def consumeCredit (h : H2) (n : Nat) : H2 × H2Rc :=
  let sid := h.frame.streamId
  let used := ((Slots.find H2Flow.streamId sid h.flow).getD ⟨sid, 0⟩).consumed
  let overflows := uint32Max - h.connConsumed < n ∨ uint32Max - used < n
  match Slots.alter H2Flow.streamId ⟨sid, 0⟩ (fun f => if overflows then f else { f with consumed := f.consumed + n }) sid
    h2EventStreams h.flow with
  | none => (h, .space)
  | some flow =>
    if overflows then ({ h with flow := flow }, .space)
    else ({ h with flow := flow, connConsumed := h.connConsumed + n }, .ok)

section Consume

variable (pton : Bytes → Bool)

/-- The data octets of a DATA frame. -/
def takeData (w : H2Work) (d : Bytes) : H2Work × H2Rc :=
  let sid := w.h.frame.streamId
  let fresh : H2Trace := ⟨sid, [], false⟩
  let t := (Slots.find H2Trace.streamId sid w.h.trace).getD fresh
  let trace := Slots.alter H2Trace.streamId fresh (fun t => d.foldl traceByte t) sid h2EventStreams w.h.trace
  let scan := if trace.isSome then traceEvents pton t d else id
  if d = [] then (w, .ok)
  else match report w.h w.ev sid fun e => scan ((e.flag .body).count d.length) with
    | none => (w, .space)
    | some ev =>
      ({ w with h := { w.h with trace := trace.getD w.h.trace }, ev := ev,
                facts := w.facts ++ [(sid, .body d.length)] }, .ok)

/-- The part of `consume_payload` that depends on the type of the frame. -/
def consumeTyped (w : H2Work) (p : Bytes) : H2Work × H2Rc :=
  let f := w.h.frame
  if f.type = h2Data then
    let r := consumeCredit w.h p.length
    if r.2 = .ok then takeData pton { w with h := r.1 } (dataPart f p) else ({ w with h := r.1 }, r.2)
  else if f.type = h2Headers ∨ f.type = h2Continuation then
    if h2HeaderBlockMax < w.h.block.bytes.length + (dataPart f p).length then (w, .space)
    else ({ w with h := { w.h with block := { w.h.block with bytes := w.h.block.bytes ++ dataPart f p } } }, .ok)
  else if f.type = h2Settings then
    let r := takeSettings w.h.setting p
    ({ w with h := { w.h with setting := r.1 } }, if r.2 then .ok else .protocol)
  else
    ({ w with h := { w.h with scratch := writeAt w.h.scratch f.got (p.take (h2ScratchMax - f.got)) } }, .ok)

/-- The payload octets that the frame has got. -/
def advance (w : H2Work) (n : Nat) : H2Work :=
  { w with h := { w.h with frame := { w.h.frame with got := w.h.frame.got + n } } }

/-- `consume_payload`. -/
def consumePayload (w : H2Work) (p : Bytes) : H2Work × H2Rc :=
  let r := readPad w.h.frame p
  let w := { w with h := { w.h with frame := r.1 } }
  if !r.2 then (w, .protocol)
  else
    let r := consumeTyped pton w p
    if r.2 = .ok then (advance r.1 p.length, .ok) else r

end Consume

/-- What a header block comes to: the parser, what is written into the event, the facts, and the result. -/
structure BlockRead where
  h : H2
  write : HttpEvent → HttpEvent
  facts : List H2Fact
  rc : H2Rc

/-- The end of a head or of trailers. -/
def endBlock (h : H2) (sid : Nat) (write : HttpEvent → HttpEvent) (facts : List H2Fact) : BlockRead :=
  let block := { h.block with endStream := false }
  if h.block.endStream then
    ⟨{ h.setStream sid fun s => { s with state := .closed } with block := block }, fun e => (write e).flag .done,
     facts ++ [H2Fact.done], .ok⟩
  else ⟨{ h with block := block }, write, facts, .ok⟩

/-- `complete_hblock` on a stream that is there. -/
def readBlock (h : H2) (sid : Nat) (s : H2Stream) : BlockRead :=
  let r := parseHpack h.block.bytes s.headDone
  let h' := { h with block := { h.block with bytes := [] } }
  if !r.2 then ⟨h, r.1.apply, [], .protocol⟩
  else if s.headDone then endBlock h' sid (fun e => (r.1.apply e).flag .trailers) [.trailers]
  else if r.1.statusCount ≠ 1 then ⟨h', r.1.apply, [], .protocol⟩
  else if r.1.status < 200 then
    if r.1.status = 101 ∨ h.block.endStream then ⟨h', r.1.apply, [], .protocol⟩
    else ⟨{ h' with block := { h'.block with endStream := false } }, fun e => (r.1.apply e).flag .informational,
          [.informational r.1.status h.block.bytes], .ok⟩
  else
    endBlock (h'.setStream sid fun s => { s with headDone := true, state := .headers }) sid
      (fun e => (r.1.apply e).flag .headers) [.headers r.1.status h.block.bytes]

/-- Facts of a stream. -/
def factsOf (sid : Nat) (fs : List H2Fact) : List (Nat × H2Fact) :=
  fs.map fun f => (sid, f)

/-- `complete_hblock`. -/
def completeHblock (w : H2Work) : H2Work × H2Rc :=
  let sid := w.h.frame.streamId
  let b : BlockRead := match w.h.streamOf sid with
    | none => ⟨w.h, id, [], .protocol⟩
    | some s => readBlock w.h sid s
  match report w.h w.ev sid b.write with
  | none => (w, .space)
  | some ev => ({ w with h := b.h, ev := ev, facts := w.facts ++ factsOf sid b.facts }, b.rc)

/-- A stream that ends with a fact. -/
def closeStream (w : H2Work) (fact : HttpFact) (note : H2Fact) : H2Work × H2Rc :=
  let sid := w.h.frame.streamId
  match report w.h w.ev sid fun e => e.flag fact with
  | none => (w, .space)
  | some ev =>
    ({ w with h := w.h.setStream sid fun s => { s with state := .closed }, ev := ev,
              facts := w.facts ++ [(sid, note)] }, .ok)

/-- A reply to a frame, where the control buffer has room for it. -/
def acknowledge (w : H2Work) (type : Nat) (payload : Bytes) : H2Work × H2Rc :=
  match emitAck w.h type payload with
  | none => (w, .space)
  | some h => ({ w with h := h }, .ok)

def finishHeaders (w : H2Work) : H2Work × H2Rc :=
  let f := w.h.frame
  if f.streamId = 0 then (w, .protocol)
  else
    let isOpen := !hasFlag f.flags h2EndHeaders
    let block := { w.h.block with isOpen := isOpen, stream := f.streamId, endStream := hasFlag f.flags h2EndStream }
    let w := { w with h := { w.h with block := block } }
    if isOpen then (w, .ok) else completeHblock w

def finishContinuation (w : H2Work) : H2Work × H2Rc :=
  if hasFlag w.h.frame.flags h2EndHeaders then
    completeHblock { w with h := { w.h with block := { w.h.block with isOpen := false } } }
  else (w, .ok)

def finishSettings (w : H2Work) : H2Work × H2Rc :=
  let f := w.h.frame
  let ack := hasFlag f.flags h2Ack
  if f.streamId ≠ 0 ∨ (ack ∧ f.len ≠ 0) ∨ (!ack ∧ f.len % 6 ≠ 0) ∨ (!ack ∧ w.h.setting ≠ []) then (w, .protocol)
  else if ack then (w, .ok)
  else acknowledge w h2Settings []

def finishPing (w : H2Work) : H2Work × H2Rc :=
  let f := w.h.frame
  if f.streamId ≠ 0 ∨ f.len ≠ 8 then (w, .protocol)
  else if hasFlag f.flags h2Ack then (w, .ok)
  else acknowledge w h2Ping (w.h.scratch.take 8)

/-- `finish_frame`. -/
def finishFrame (w : H2Work) : H2Work × H2Rc :=
  let f := w.h.frame
  if f.type = h2Data then
    if hasFlag f.flags h2EndStream then closeStream w .done .done else (w, .ok)
  else if f.type = h2Headers then finishHeaders w
  else if f.type = h2Continuation then finishContinuation w
  else if f.type = h2Settings then finishSettings w
  else if f.type = h2Ping then finishPing w
  else if f.type = h2RstStream then
    if f.streamId = 0 ∨ f.len ≠ 4 then (w, .protocol) else closeStream w .reset .reset
  else if f.type = h2Goaway then
    if f.streamId ≠ 0 ∨ f.len < 8 then (w, .protocol) else ({ w with ev := { w.ev with goaway := true } }, .ok)
  else if f.type = h2WindowUpdate then
    (w, if f.len ≠ 4 ∨ rd32 w.h.scratch % 2 ^ 31 = 0 then .protocol else .ok)
  else if f.type = h2PushPromise then (w, .protocol)
  else (w, .ok)

/-- A frame that is over: the next header starts. -/
def endFrame (w : H2Work) : H2Work × H2Rc :=
  let r := finishFrame w
  ({ r.1 with h := { r.1.h with hdr := [] } }, r.2)

abbrev H2Turn := Rounds.Turn H2Work UInt8 H2Rc

def h2Turn (r : H2Work × H2Rc) (rest : Bytes) : H2Turn :=
  if r.2 = .ok then .next r.1 rest else .stop r.1 r.2

section Feed

variable (pton : Bytes → Bool)

/-- The octets of DATA frames that a round has consumed. -/
def countOctets (w : H2Work) (n : Nat) : H2Work :=
  if w.h.frame.type = h2Data then { w with octets := w.octets ++ [(w.h.frame.streamId, n)] } else w

/-- The payload bytes of the frame that are in the input. -/
def payloadRound (w : H2Work) (p : Bytes) : H2Turn :=
  let n := w.h.frame.len - w.h.frame.got
  let r := consumePayload pton w (p.take n)
  if r.2 = .ok then
    let w := countOctets r.1 (p.take n).length
    if w.h.frame.got = w.h.frame.len then h2Turn (endFrame w) (p.drop n) else .next w (p.drop n)
  else .stop r.1 r.2

def h2HdrLen : Nat := 9

/-- The frame that starts after a whole header. -/
def headerRound (w : H2Work) (p : Bytes) : H2Turn :=
  let r := beginFrame w.h
  let w := { w with h := r.1 }
  if r.2 = .ok then
    if w.h.frame.len = 0 then h2Turn (endFrame w) p else payloadRound pton w p
  else .stop w r.2

/-- One round of the loop of `qn_h2_feed`. -/
def h2Round (w : H2Work) (p : Bytes) : H2Turn :=
  if w.h.hdr.length < h2HdrLen then
    let n := h2HdrLen - w.h.hdr.length
    let w := { w with h := { w.h with hdr := w.h.hdr ++ p.take n } }
    if w.h.hdr.length < h2HdrLen then .next w (p.drop n) else headerRound pton w (p.drop n)
  else payloadRound pton w p

/-- What a call of `qn_h2_feed` gives back. -/
structure H2Result where
  rc : H2Rc
  h : H2
  handed : List H2Out
  ev : H2Event
  facts : List (Nat × H2Fact)
  octets : List (Nat × Nat)

/-- Whether a call publishes all credit. -/
def drains (p : Bytes) (ev : H2Event) : Bool :=
  p.isEmpty || ev.streams.any (fun e => decide (.done ∈ e.flags ∨ .reset ∈ e.flags)) || ev.goaway

/-- The end of `qn_h2_feed` after its loop. -/
def h2Publish (w : H2Work) (emitted : List H2Out) (cap : Nat) (force : Bool) : H2Result :=
  let room := cap - outSize emitted
  let r := replenishWindows w.h room force
  if r.2 ≠ .ok then ⟨r.2, r.1, emitted, w.ev, w.facts, w.octets⟩
  else if room < outSize r.1.control then ⟨.space, r.1, emitted, w.ev, w.facts, w.octets⟩
  else ⟨.ok, { r.1 with control := [] }, emitted ++ r.1.control, w.ev, w.facts, w.octets⟩

/-- `qn_h2_feed`. -/
def h2Feed (h : H2) (p : Bytes) (cap : Nat) : H2Result :=
  if h.control ≠ [] ∧ cap < outSize h.control then ⟨.space, h, [], .empty, [], []⟩
  else
    let r := Rounds.run (h2Round pton) (2 * p.length + 2) ⟨{ h with control := [] }, .empty, [], []⟩ p
    match r.2 with
    | some rc => ⟨rc, r.1.h, h.control, r.1.ev, r.1.facts, r.1.octets⟩
    | none => h2Publish r.1 h.control cap (drains p r.1.ev)

end Feed

end Qanat
