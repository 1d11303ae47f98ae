import Qanat.TlsTypes

namespace Qanat

def chCr : UInt8 := 13

def chLf : UInt8 := 10

def chSp : UInt8 := 32

def chTab : UInt8 := 9

/-- The bytes of an ASCII literal. -/
def ascii (s : List Char) : Bytes :=
  s.map fun c => UInt8.ofNat c.toNat

/-- `lc`. -/
def lower (c : UInt8) : UInt8 :=
  if 0x41 ≤ c ∧ c ≤ 0x5A then c + 0x20 else c

/-- `ascii_eq`: the literal is in lower case. -/
def asciiEq (p s : Bytes) : Bool :=
  p.map lower == s

/-- `key_is`. -/
def keyIs (p s : Bytes) : Bool :=
  asciiEq p s

def isUpper (c : UInt8) : Bool :=
  0x41 ≤ c && c ≤ 0x5A

def isDigit (c : UInt8) : Bool :=
  0x30 ≤ c && c ≤ 0x39

def isBlank (c : UInt8) : Bool :=
  c == chSp || c == chTab

def skipBlanks (p : Bytes) : Bytes :=
  p.dropWhile isBlank

/-- `qn_find_ci`: what stands from the first match on. -/
def findCi (needle : Bytes) : Bytes → Option Bytes
  | [] => none
  | c :: t => if (needle.map lower).isPrefixOf ((c :: t).map lower) then some (c :: t) else findCi needle t

def crlf : Bytes := [chCr, chLf]

/-- `qn_find_headers_end`. -/
def findHeadersEnd : Bytes → Option Nat
  | [] => none
  | c :: t => if (crlf ++ crlf).isPrefixOf (c :: t) then some 4 else (findHeadersEnd t).map (· + 1)

/-- The loop of `parse_status` that looks for the end of the status line. -/
def statusEol : Nat → Bytes → Bool
  | 0, _ => false
  | _ + 1, [] => false
  | n + 1, c :: t => if c = chLf then false else if c = chCr then t.head? == some chLf else statusEol n t

def statusLineMax : Nat := 512

/-- `parse_status`. -/
def parseStatus (b : Bytes) : Nat :=
  if b.length < 12 ∨ b.take 7 ≠ ascii ['H', 'T', 'T', 'P', '/', '1', '.'] then 0
  else if (byteAt b 7 ≠ 0x30 ∧ byteAt b 7 ≠ 0x31) ∨ byteAt b 8 ≠ 0x20 then 0
  else if !((b.drop 9).take 3).all isDigit then 0
  else
    let code := (byteAt b 9 - 0x30) * 100 + (byteAt b 10 - 0x30) * 10 + (byteAt b 11 - 0x30)
    if code < 100 ∨ code > 599 then 0
    else if 12 < b.length ∧ byteAt b 12 ≠ 0x20 ∧ byteAt b 12 ≠ 0x0D then 0
    else if statusEol (statusLineMax - 12) (b.drop 12) then code
    else 0

/-- What stands after the last `-` of a header value. -/
def afterDash : Bytes → Option Bytes
  | [] => none
  | c :: t =>
    if c = chCr ∨ c = chLf then none
    else match afterDash t with
      | some r => some r
      | none => if c = 0x2D then some t else none

/-- `parse_cfray`: the letters it leaves in `colo`, also where it gives up in the middle. -/
def parseCfray (b : Bytes) : Bytes :=
  match findCi (ascii ['\n', 'c', 'f', '-', 'r', 'a', 'y', ':']) b with
  | none => []
  | some h =>
    match afterDash (skipBlanks (h.drop 8)) with
    | none => []
    | some r => if r.length < 3 then [] else (r.take 3).takeWhile isUpper

/-- `valid_colo`. -/
def validColo (p : Bytes) : Bool :=
  p.length == 3 && p.all isUpper

/-- `qn_trace_body` without the address. -/
structure TraceBody where
  colo : Bytes
  lines : Nat
  haveColo : Bool
  haveIp : Bool
  conflict : Bool
  malformed : Bool
  deriving DecidableEq, Repr

def TraceBody.empty : TraceBody :=
  ⟨[], 0, false, false, false, false⟩

def traceLineMax : Nat := 128

def addrStrLen : Nat := 46

/-- The lines of a body that a line feed ends. -/
def bodyLines : Bytes → Bytes → List Bytes
  | _, [] => []
  | acc, c :: t => if c = chLf then acc :: bodyLines [] t else bodyLines (acc ++ [c]) t

/-- A line without one carriage return at its end. -/
def stripCr (l : Bytes) : Bytes :=
  if l.getLast? = some chCr then l.dropLast else l

section Trace

variable (pton : Bytes → Bool)

/-- `qn_addr_parse` on the bytes of a C string. -/
def addrParse (s : Bytes) : Bool :=
  !(cString s).isEmpty && pton (cString s)

/-- `qn_http_trace_parse` on a `key=value` line. -/
def traceField (t : TraceBody) (key value : Bytes) : TraceBody :=
  if keyIs key (ascii ['c', 'o', 'l', 'o']) then
    if !validColo value then { t with malformed := true }
    else if t.haveColo ∧ t.colo ≠ value then { t with conflict := true }
    else { t with colo := value, haveColo := true }
  else if keyIs key (ascii ['i', 'p']) then
    if addrStrLen ≤ value.length then { t with malformed := true }
    else if !addrParse pton value then { t with malformed := true }
    else { t with haveIp := true }
  else t

/-- One line of `qn_http_trace_parse`. -/
def traceLine (t : TraceBody) (line : Bytes) : TraceBody :=
  let l := stripCr line
  if l = [] then t
  else if traceLineMax < l.length then { t with malformed := true }
  else
    let key := l.takeWhile (· ≠ 0x3D)
    if key.length = l.length ∨ key = [] then { t with malformed := true }
    else traceField pton { t with lines := t.lines + 1 } key (l.drop (key.length + 1))

def traceLines : TraceBody → List Bytes → TraceBody
  | t, [] => t
  | t, l :: ls =>
    let t' := traceLine pton t l
    if t'.malformed ∨ t'.conflict then t' else traceLines t' ls

/-- `qn_http_trace_parse`. -/
def httpTraceParse (b : Bytes) : Bool × TraceBody :=
  let t := traceLines pton .empty (bodyLines [] b)
  (!t.malformed && !t.conflict && t.haveColo, t)

/-- `qn_http_reply`. -/
structure HttpReply where
  status : Nat
  colo : Bytes
  isCloudflare : Bool
  cfRay : Bool
  serverCloudflare : Bool
  coloVerified : Bool
  complete : Bool
  deriving DecidableEq, Repr

def serverHint : Bytes :=
  ascii ['\n', 's', 'e', 'r', 'v', 'e', 'r', ':', ' ', 'c', 'l', 'o', 'u', 'd', 'f', 'l', 'a', 'r', 'e']

def cfRayHint : Bytes :=
  ascii ['\n', 'c', 'f', '-', 'r', 'a', 'y', ':']

/-- The reply `qn_http_parse` reads off the first `hlen` bytes. -/
def headerReply (b : Bytes) (status : Nat) (hend : Option Nat) : HttpReply :=
  let head := b.take (hend.getD b.length)
  let server := (findCi serverHint head).isSome
  let ray := (findCi cfRayHint head).isSome
  ⟨status, parseCfray head, server || ray, ray, server, false, hend.isSome⟩

/-- `qn_http_parse`. -/
def httpParse (b : Bytes) : Option HttpReply :=
  if b.length < 12 ∨ parseStatus b = 0 then none
  else
    let hend := findHeadersEnd b
    let rep := headerReply b (parseStatus b) hend
    match hend with
    | some n =>
      if rep.status = 200 then
        let tb := httpTraceParse pton (b.drop n)
        if tb.1 then some { rep with colo := tb.2.colo, coloVerified := true }
        else if tb.2.malformed ∨ tb.2.conflict then none
        else some rep
      else some rep
    | none => some rep

end Trace

theorem parseStatus_range (b : Bytes) : parseStatus b = 0 ∨ 100 ≤ parseStatus b ∧ parseStatus b ≤ 599 := by
  unfold parseStatus
  dsimp only
  split_ifs
  all_goals omega

theorem httpParse_status {pton : Bytes → Bool} {b : Bytes} {rep : HttpReply} (h : httpParse pton b = some rep) :
    rep.status = parseStatus b ∧ rep.status ≠ 0 := by
  unfold httpParse at h
  split at h
  next => simp at h
  next hok =>
    rw [not_or] at hok
    refine (fun heq => ⟨heq, heq ▸ hok.2⟩) ?_
    dsimp only at h
    split at h
    next =>
      split_ifs at h
      all_goals
        obtain rfl := Option.some.inj h
        rfl
    next =>
      obtain rfl := Option.some.inj h
      rfl

section Colo

variable (pton : Bytes → Bool)

theorem traceField_colo {t : TraceBody} {key value : Bytes} (ht : t.haveColo = true → validColo t.colo = true) :
    (traceField pton t key value).haveColo = true → validColo (traceField pton t key value).colo = true := by
  unfold traceField
  split_ifs
  all_goals simp_all

theorem traceLine_colo {t : TraceBody} {line : Bytes} (ht : t.haveColo = true → validColo t.colo = true) :
    (traceLine pton t line).haveColo = true → validColo (traceLine pton t line).colo = true := by
  unfold traceLine
  dsimp only
  split_ifs
  next => exact ht
  next => exact ht
  next => exact ht
  next => exact traceField_colo pton ht

theorem traceLines_colo {t : TraceBody} {ls : List Bytes} (ht : t.haveColo = true → validColo t.colo = true) :
    (traceLines pton t ls).haveColo = true → validColo (traceLines pton t ls).colo = true := by
  induction ls generalizing t with
  | nil => exact ht
  | cons l ls ih =>
    unfold traceLines
    dsimp only
    split
    next => exact traceLine_colo pton ht
    next => exact ih (traceLine_colo pton ht)

/-- A trace body counts as evidence only with a valid colo. -/
theorem httpTraceParse_colo {b : Bytes} (h : (httpTraceParse pton b).1 = true) :
    validColo (httpTraceParse pton b).2.colo = true := by
  unfold httpTraceParse at h ⊢
  simp only [Bool.and_eq_true] at h
  exact traceLines_colo pton (by simp [TraceBody.empty]) h.2

end Colo

end Qanat
