import Qanat.HttpEvent
import Qanat.General.Rounds

namespace Qanat

/-- `qn_http1_rc`. -/
inductive Http1Rc
  | ok
  | protocol
  | space
  deriving DecidableEq, Repr

/-- The `H1_*` states. -/
inductive Http1State
  | head
  | fixed
  | chunkSize
  | chunkData
  | chunkCrlf
  | trailers
  | eofBody
  deriving DecidableEq, Repr

def http1HeadMax : Nat := 8192

def uint64Max : Nat := 2 ^ 64 - 1

/-- `qn_http1`. -/
structure Http1 where
  head : Bytes
  left : Nat
  currentBody : Nat
  totalBody : Nat
  responses : Nat
  opened : Nat
  status : Nat
  state : Http1State
  crlfN : Nat
  line : Bytes
  lineOverflow : Bool
  deriving DecidableEq, Repr

/-- `qn_http1_init`. -/
def Http1.init : Http1 :=
  ⟨[], 0, 0, 0, 0, 1, 0, .head, 0, [], false⟩

/-- `qn_http1_open_response`. -/
def Http1.openResponse (h : Http1) : Bool × Http1 :=
  if h.opened = 2 ^ 32 - 1 then (false, h) else (true, { h with opened := h.opened + 1 })

def tchar (c : UInt8) : Bool :=
  isDigit c || isUpper c || (0x61 ≤ c && c ≤ 0x7A) ||
    (ascii ['!', '#', '$', '%', '&', '\x27', '*', '+', '-', '.', '^', '_', '\x60', '|', '~']).contains c

def token (p : Bytes) : Bool :=
  !p.isEmpty && p.all tchar

/-- `te_list`. -/
structure TeList where
  codings : Nat
  chunkedSeen : Nat
  chunkedIsLast : Bool
  malformed : Bool
  deriving DecidableEq, Repr

def rstripBlanks (p : Bytes) : Bytes :=
  (p.reverse.dropWhile isBlank).reverse

/-- One element of a Transfer-Encoding list; `inside` says that it starts before the end of the value. -/
def teElement (te : TeList) (inside : Bool) (el : Bytes) : TeList :=
  if el = [] then
    if inside ∨ te.codings ≠ 0 then { te with malformed := true } else te
  else if !token el then { te with malformed := true }
  else if asciiEq el (ascii ['c', 'h', 'u', 'n', 'k', 'e', 'd']) then
    { te with codings := te.codings + 1, chunkedSeen := te.chunkedSeen + 1, chunkedIsLast := true }
  else { te with codings := te.codings + 1, chunkedIsLast := false }

def teElements : Nat → TeList → Bytes → TeList
  | 0, te, _ => te
  | n + 1, te, p =>
    if p = [] then te
    else
      let q := skipBlanks p
      let el := q.takeWhile (· ≠ 0x2C)
      teElements n (teElement te (!q.isEmpty) (rstripBlanks el)) (q.drop (el.length + 1))

/-- `te_append`. -/
def teAppend (te : TeList) (p : Bytes) : TeList :=
  teElements p.length { te with malformed := te.malformed || (rstripBlanks p).getLast? == some 0x2C } p

/-- The digits at the front of a value, unless they overflow. -/
def takeDecimal : Nat → Bytes → Option (Nat × Bytes)
  | v, [] => some (v, [])
  | v, c :: t =>
    if isDigit c then
      let d := c.toNat - 0x30
      if (uint64Max - d) / 10 < v then none else takeDecimal (v * 10 + d) t
    else some (v, c :: t)

/-- `parse_decimal`. -/
def parseDecimal (p : Bytes) : Option Nat :=
  let q := skipBlanks p
  if q = [] then none
  else match takeDecimal 0 q with
    | none => none
    | some (v, r) => if skipBlanks r = [] then some v else none

def hexVal (c : UInt8) : Option Nat :=
  if isDigit c then some (c.toNat - 0x30)
  else if 0x61 ≤ c ∧ c ≤ 0x66 then some (c.toNat - 0x61 + 10)
  else if 0x41 ≤ c ∧ c ≤ 0x46 then some (c.toNat - 0x41 + 10)
  else none

/-- The hexadecimal digits at the front of a line, and whether there were any. -/
def takeHex : Bool → Nat → Bytes → Option (Bool × Nat × Bytes)
  | any, v, [] => some (any, v, [])
  | any, v, c :: t =>
    if c = 0x3B ∨ isBlank c then some (any, v, c :: t)
    else match hexVal c with
      | none => none
      | some d => if (uint64Max - d) / 16 < v then none else takeHex true (v * 16 + d) t

/-- What follows a quoted string whose opening quote is behind. -/
def skipQuoted : Bytes → Option Bytes
  | [] => none
  | c :: t =>
    if c = 0x22 then some t
    else if c = 0x5C then
      match t with
      | [] => none
      | e :: u => if e < 0x20 ∨ e = 0x7F then none else skipQuoted u
    else if (c < 0x20 ∧ c ≠ chTab) ∨ c = 0x7F then none
    else skipQuoted t

def skipToken (p : Bytes) : Option Bytes :=
  if p.takeWhile tchar = [] then none else some (p.dropWhile tchar)

/-- What follows the value of a chunk extension. -/
def skipExtValue : Bytes → Option Bytes
  | [] => some []
  | c :: t =>
    if c = 0x3D then
      match t with
      | [] => none
      | d :: u => if d = 0x22 then skipQuoted u else skipToken (d :: u)
    else some (c :: t)

def chunkExts : Nat → Bytes → Bool
  | _, [] => true
  | 0, _ :: _ => false
  | n + 1, c :: t =>
    if c ≠ 0x3B then false
    else match skipToken (skipBlanks t) with
      | none => false
      | some r =>
        match skipExtValue r with
        | none => false
        | some u => chunkExts n (skipBlanks u)

/-- `parse_hex_line`. -/
def parseHexLine (p : Bytes) : Option Nat :=
  match takeHex false 0 (skipBlanks p) with
  | none => none
  | some (any, v, r) => if any && chunkExts p.length (skipBlanks r) then some v else none

/-- What stands before the first CRLF, and after it. -/
def splitCrlf : Bytes → Option (Bytes × Bytes)
  | [] => none
  | c :: t =>
    if crlf.isPrefixOf (c :: t) then some ([], t.drop 1)
    else (splitCrlf t).map fun r => (c :: r.1, r.2)

/-- What `parse_head` has read of the framing fields. -/
structure HeadScan where
  haveLen : Bool
  haveTe : Bool
  contentLen : Nat
  te : TeList
  deriving DecidableEq, Repr

def HeadScan.empty : HeadScan :=
  ⟨false, false, 0, ⟨0, 0, false, false⟩⟩

def contentLengthName : Bytes :=
  ascii ['c', 'o', 'n', 't', 'e', 'n', 't', '-', 'l', 'e', 'n', 'g', 't', 'h']

def transferEncodingName : Bytes :=
  ascii ['t', 'r', 'a', 'n', 's', 'f', 'e', 'r', '-', 'e', 'n', 'c', 'o', 'd', 'i', 'n', 'g']

/-- One header line of `parse_head`. -/
def scanField (s : HeadScan) (line : Bytes) : Option HeadScan :=
  let name := line.takeWhile (· ≠ 0x3A)
  let value := skipBlanks (line.drop (name.length + 1))
  if name.length = line.length ∨ !token name then none
  else if asciiEq name contentLengthName then
    match parseDecimal value with
    | none => none
    | some v => if s.haveLen ∧ v ≠ s.contentLen then none else some { s with haveLen := true, contentLen := v }
  else if asciiEq name transferEncodingName then some { s with haveTe := true, te := teAppend s.te value }
  else some s

def scanFields : Nat → HeadScan → Bytes → Option HeadScan
  | 0, s, _ => some s
  | n + 1, s, p =>
    if p.length < 2 then some s
    else match splitCrlf p with
      | none => none
      | some (line, rest) =>
        if line = [] then some s
        else match scanField s line with
          | none => none
          | some s' => scanFields n s' rest

def scanHead (p : Bytes) : Option HeadScan :=
  match splitCrlf p with
  | none => none
  | some (_, rest) => scanFields rest.length .empty rest

/-- A parser and the event of the call it is in. -/
structure Http1Work where
  h : Http1
  ev : HttpEvent
  deriving DecidableEq

def Http1Work.setLeft (w : Http1Work) (n : Nat) : Http1Work :=
  { w with h := { w.h with left := n } }

section Body

variable (pton : Bytes → Bool)

/-- `event_trace`. -/
def eventTrace (ev : HttpEvent) (colo : Bytes) : HttpEvent :=
  if colo = [] then ev.flag .traceColo else (ev.flag .traceColo).edge colo

/-- `scan_line`. -/
def scanLine (h : Http1) (ev : HttpEvent) : HttpEvent :=
  if h.lineOverflow ∨ h.line = [] then ev
  else
    let tb := httpTraceParse pton (h.line ++ [chLf])
    if tb.1 ∧ tb.2.haveColo then eventTrace ev tb.2.colo else ev

/-- `scan_trace` on one byte. -/
def scanByte (w : Http1Work) (c : UInt8) : Http1Work :=
  if c = chLf then ⟨{ w.h with line := [], lineOverflow := false }, scanLine pton w.h w.ev⟩
  else if c = chCr then w
  else if traceLineMax ≤ w.h.line.length then ⟨{ w.h with lineOverflow := true }, w.ev⟩
  else ⟨{ w.h with line := w.h.line ++ [c] }, w.ev⟩

/-- `scan_trace`. -/
def scanTrace (w : Http1Work) (p : Bytes) : Http1Work :=
  p.foldl (scanByte pton) w

/-- The counts of `body` before it scans the bytes. -/
def countBody (w : Http1Work) (n : Nat) : Http1Work :=
  ⟨{ w.h with currentBody := w.h.currentBody + n, totalBody := w.h.totalBody + n },
   ((w.ev.flag .body).stamp (w.h.responses + 1) w.h.status).count n⟩

/-- `body`. -/
def http1Body (w : Http1Work) (p : Bytes) : Http1Work :=
  scanTrace pton (countBody w p.length) p

end Body

/-- `reset_response`. -/
def resetResponse (h : Http1) : Http1 :=
  { h with head := [], left := 0, currentBody := 0, status := 0, state := .head, crlfN := 0, line := [],
           lineOverflow := false }

/-- `complete`. -/
def complete (w : Http1Work) : Http1Work :=
  ⟨resetResponse { w.h with responses := w.h.responses + 1 },
   (w.ev.flag .done).stamp (w.h.responses + 1) w.h.status⟩

/-- `parse_head` on the framing fields of a head that has been read. -/
def frameBody (w : Http1Work) (s : HeadScan) : Http1Work × Http1Rc :=
  if w.h.status = 101 then (w, .protocol)
  else if 100 ≤ w.h.status ∧ w.h.status < 200 then (⟨resetResponse w.h, w.ev.flag .informational⟩, .ok)
  else
    let w := { w with ev := w.ev.flag .headers }
    if w.h.opened ≤ w.h.responses then (w, .protocol)
    else if s.haveTe ∧ (s.te.malformed ∨ s.te.codings = 0 ∨ 1 < s.te.chunkedSeen) then (w, .protocol)
    else if s.haveTe ∧ s.haveLen then (w, .protocol)
    else if w.h.status = 204 ∨ w.h.status = 304 then (complete w, .ok)
    else if s.haveTe then
      ({ w with h := { w.h with state := if s.te.chunkedIsLast then .chunkSize else .eofBody } }, .ok)
    else if s.haveLen then
      let w := { w with h := { w.h with left := s.contentLen, state := .fixed } }
      (if s.contentLen = 0 then complete w else w, .ok)
    else ({ w with h := { w.h with state := .eofBody } }, .ok)

/-- The facts `parse_head` takes from the status line and the header hints. -/
def noteReply (w : Http1Work) (rep : HttpReply) : Http1Work :=
  let ev := w.ev.stamp (w.h.responses + 1) rep.status
  let ev := if rep.cfRay then ev.flag .cfRay else ev
  ⟨{ w.h with status := rep.status }, if rep.serverCloudflare then ev.flag .serverCloudflare else ev⟩

section Feed

variable (pton : Bytes → Bool)

/-- `parse_head`. -/
def parseHead (w : Http1Work) : Http1Work × Http1Rc :=
  match httpParse pton w.h.head with
  | none => (w, .protocol)
  | some rep =>
    if !rep.complete then (w, .protocol)
    else match scanHead w.h.head with
      | none => (noteReply w rep, .protocol)
      | some s => frameBody { noteReply w rep with h := { (noteReply w rep).h with head := [] } } s

/-- A byte kept in the head buffer. -/
def pushHead (w : Http1Work) (c : UInt8) : Http1Work :=
  { w with h := { w.h with head := w.h.head ++ [c] } }

/-- `qn_http1_feed` on a byte in `H1_HEAD`. -/
def headByte (w : Http1Work) (c : UInt8) : Http1Work × Http1Rc :=
  if http1HeadMax ≤ w.h.head.length then (w, .space)
  else if (crlf ++ crlf).isSuffixOf (pushHead w c).h.head then parseHead pton (pushHead w c)
  else (pushHead w c, .ok)

/-- `qn_http1_feed` on a byte in `H1_CHUNK_SIZE`. -/
def chunkSizeByte (w : Http1Work) (c : UInt8) : Http1Work × Http1Rc :=
  if http1HeadMax ≤ w.h.head.length then (w, .space)
  else
    let w := pushHead w c
    if crlf.isSuffixOf w.h.head then
      match parseHexLine (w.h.head.take (w.h.head.length - 2)) with
      | none => (w, .protocol)
      | some v =>
        ({ w with h := { w.h with head := [], left := v, state := if v = 0 then .trailers else .chunkData } }, .ok)
    else (w, .ok)

/-- `qn_http1_feed` on a byte in `H1_CHUNK_CRLF`. -/
def chunkCrlfByte (w : Http1Work) (c : UInt8) : Http1Work × Http1Rc :=
  if c ≠ (if w.h.crlfN = 0 then chCr else chLf) then (w, .protocol)
  else if w.h.crlfN + 1 = 2 then
    ({ w with h := { w.h with crlfN := w.h.crlfN + 1, head := [], state := .chunkSize } }, .ok)
  else ({ w with h := { w.h with crlfN := w.h.crlfN + 1 } }, .ok)

/-- `qn_http1_feed` on a byte in `H1_TRAILERS`. -/
def trailersByte (w : Http1Work) (c : UInt8) : Http1Work × Http1Rc :=
  if http1HeadMax ≤ w.h.head.length then (w, .space)
  else
    let w := pushHead w c
    if w.h.head = crlf then (complete w, .ok)
    else if (crlf ++ crlf).isSuffixOf w.h.head then (complete { w with ev := w.ev.flag .trailers }, .ok)
    else (w, .ok)

/-- The body bytes a length-delimited state takes of its input. -/
def takeBody (w : Http1Work) (p : Bytes) : Http1Work :=
  (http1Body pton w (p.take w.h.left)).setLeft (w.h.left - p.length)

/-- `qn_http1_feed` in `H1_FIXED`. -/
def takeFixed (w : Http1Work) (p : Bytes) : Http1Work :=
  let w' := takeBody pton w p
  if w'.h.left = 0 then complete w' else w'

/-- `qn_http1_feed` in `H1_CHUNK_DATA`. -/
def takeChunk (w : Http1Work) (p : Bytes) : Http1Work :=
  let w' := takeBody pton w p
  if w'.h.left = 0 then { w' with h := { w'.h with state := .chunkCrlf, crlfN := 0 } } else w'

abbrev Http1Turn := Rounds.Turn Http1Work UInt8 Http1Rc

/-- A round that took one byte. -/
def byteTurn (r : Http1Work × Http1Rc) (rest : Bytes) : Http1Turn :=
  if r.2 = .ok then .next r.1 rest else .stop r.1 r.2

/-- One round of the loop of `qn_http1_feed`. -/
def http1Round (w : Http1Work) : Bytes → Http1Turn
  | [] => .next w []
  | c :: t =>
    match w.h.state with
    | .head => byteTurn (headByte pton w c) t
    | .fixed => .next (takeFixed pton w (c :: t)) ((c :: t).drop w.h.left)
    | .chunkSize => byteTurn (chunkSizeByte w c) t
    | .chunkData => .next (takeChunk pton w (c :: t)) ((c :: t).drop w.h.left)
    | .chunkCrlf => byteTurn (chunkCrlfByte w c) t
    | .trailers => byteTurn (trailersByte w c) t
    | .eofBody => .next (http1Body pton w (c :: t)) []

/-- `qn_http1_feed`. -/
def http1Feed (h : Http1) (p : Bytes) : Http1Work × Http1Rc :=
  let r := Rounds.run (http1Round pton) (2 * p.length + 2) ⟨h, .empty⟩ p
  (r.1, r.2.getD .ok)

/-- `qn_http1_eof`. -/
def http1Eof (h : Http1) : Http1Work × Http1Rc :=
  if h.state = .eofBody then (complete ⟨h, .empty⟩, .ok)
  else (⟨h, .empty⟩, if h.state = .head ∧ h.head = [] then .ok else .protocol)

/-- The calls made on a parser. -/
inductive Http1Call
  | openResponse
  | feed (p : Bytes)
  | eof

/-- The parser a call leaves behind. -/
def http1After (h : Http1) : Http1Call → Http1
  | .openResponse => h.openResponse.2
  | .feed p => (http1Feed pton h p).1.h
  | .eof => (http1Eof h).1.h

/-- A parser after any calls. -/
def http1Reached (calls : List Http1Call) : Http1 :=
  calls.foldl (http1After pton) .init

end Feed

end Qanat
