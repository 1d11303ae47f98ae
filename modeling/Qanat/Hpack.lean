import Qanat.HttpEvent

namespace Qanat

def huffMaxLen : Nat := 30

def huffEos : Nat := 256

def huffMaxOut : Nat := 65536

def huffCount : List Nat :=
  [0, 0, 0, 0, 0, 10, 26, 32, 6, 0, 5, 3, 2, 6, 2, 3, 0, 0, 0, 3, 8, 13, 26, 29, 12, 4, 15, 19, 29, 0, 4]

def huffFirstCode : List Nat :=
  [0x0, 0x0, 0x0, 0x0, 0x0, 0x0, 0x14, 0x5c, 0xf8, 0x1fc, 0x3f8, 0x7fa, 0xffa, 0x1ff8, 0x3ffc, 0x7ffc, 0xfffe,
   0x1fffc, 0x3fff8, 0x7fff0, 0xfffe6, 0x1fffdc, 0x3fffd2, 0x7fffd8, 0xffffea, 0x1ffffec, 0x3ffffe0, 0x7ffffde,
   0xfffffe2, 0x1ffffffe, 0x3ffffffc]

def huffFirstIndex : List Nat :=
  [0, 0, 0, 0, 0, 0, 10, 36, 68, 74, 74, 79, 82, 84, 90, 92, 95, 95, 95, 95, 98, 106, 119, 145, 174, 186, 190, 205,
   224, 253, 253]

def huffSym : List Nat :=
  [48, 49, 50, 97, 99, 101, 105, 111, 115, 116, 32, 37, 45, 46, 47, 51, 52, 53, 54, 55, 56, 57, 61, 65, 95, 98, 100,
   102, 103, 104, 108, 109, 110, 112, 114, 117, 58, 66, 67, 68, 69, 70, 71, 72, 73, 74, 75, 76, 77, 78, 79, 80, 81,
   82, 83, 84, 85, 86, 87, 89, 106, 107, 113, 118, 119, 120, 121, 122, 38, 42, 44, 59, 88, 90, 33, 34, 40, 41, 63,
   39, 43, 124, 35, 62, 0, 36, 64, 91, 93, 126, 94, 125, 60, 96, 123, 92, 195, 208, 128, 130, 131, 162, 184, 194,
   224, 226, 153, 161, 167, 172, 176, 177, 179, 209, 216, 217, 227, 229, 230, 129, 132, 133, 134, 136, 146, 154, 156,
   160, 163, 164, 169, 170, 173, 178, 181, 185, 186, 187, 189, 190, 196, 198, 228, 232, 233, 1, 135, 137, 138, 139,
   140, 141, 143, 147, 149, 150, 151, 152, 155, 157, 158, 165, 166, 168, 174, 175, 180, 182, 183, 188, 191, 197, 231,
   239, 9, 142, 144, 145, 148, 159, 171, 206, 215, 225, 236, 237, 199, 207, 234, 235, 192, 193, 200, 201, 202, 205,
   210, 213, 218, 219, 238, 240, 242, 243, 255, 203, 204, 211, 212, 214, 221, 222, 223, 241, 244, 245, 246, 247, 248,
   250, 251, 252, 253, 254, 2, 3, 4, 5, 6, 7, 8, 11, 12, 14, 15, 16, 17, 18, 19, 20, 21, 23, 24, 25, 26, 27, 28, 29,
   30, 31, 127, 220, 249, 10, 13, 22, 256]

/-- What `qn_huff_decode` has read. -/
structure HuffState where
  code : Nat
  nbits : Nat
  out : Bytes
  len : Nat
  truncated : Bool
  hasUpper : Bool
  deriving DecidableEq, Repr

/-- A symbol that `qn_huff_decode` has found. -/
def huffEmit (cap : Nat) (s : HuffState) (sym : Nat) : Option HuffState :=
  if sym = huffEos ∨ huffMaxOut ≤ s.len then none
  else some
    { code := 0
      nbits := 0
      out := if s.out.length < cap then s.out ++ [UInt8.ofNat sym] else s.out
      len := s.len + 1
      truncated := s.truncated || cap ≤ s.out.length
      hasUpper := s.hasUpper || (0x41 ≤ sym && sym ≤ 0x5A) }

/-- One bit of `qn_huff_decode`. -/
def huffBit (cap : Nat) (s : HuffState) (bit : Nat) : Option HuffState :=
  let s := { s with code := s.code * 2 + bit, nbits := s.nbits + 1 }
  let first := huffFirstCode.getD s.nbits 0
  let count := huffCount.getD s.nbits 0
  if huffMaxLen < s.nbits then none
  else if count = 0 ∨ s.code < first ∨ count ≤ s.code - first then some s
  else huffEmit cap s (huffSym.getD (huffFirstIndex.getD s.nbits 0 + (s.code - first)) 0)

/-- The bits of a byte, the highest first. -/
def byteBits (c : UInt8) : List Nat :=
  [7, 6, 5, 4, 3, 2, 1, 0].map fun i => c.toNat / 2 ^ i % 2

/-- `hstr`: at most `cap` bytes of a string, and what holds of all of it. -/
structure HStr where
  bytes : Bytes
  full : Nat
  truncated : Bool
  hasUpper : Bool
  deriving DecidableEq, Repr

/-- `qn_huff_decode`. -/
def huffDecode (src : Bytes) (cap : Nat) : Option HStr :=
  match (src.flatMap byteBits).foldlM (huffBit cap) ⟨0, 0, [], 0, false, false⟩ with
  | none => none
  | some s =>
    if 8 ≤ s.nbits ∨ (s.nbits ≠ 0 ∧ s.code ≠ 2 ^ s.nbits - 1) then none
    else some ⟨s.out, s.len, s.truncated, s.hasUpper⟩

def uint32Max : Nat := 2 ^ 32 - 1

/-- The loop of `pull_hpack_int`. -/
def pullHpackMore : Nat → Nat → Bytes → Option (Nat × Bytes)
  | _, _, [] => none
  | v, shift, c :: t =>
    if 28 < shift ∨ (uint32Max - v) / 2 ^ shift < c.toNat % 128 then none
    else
      let v' := v + c.toNat % 128 * 2 ^ shift
      if 128 ≤ c.toNat then pullHpackMore v' (shift + 7) t else some (v', t)

/-- `pull_hpack_int`: the value and what follows it. -/
def pullHpackInt (bits : Nat) : Bytes → Option (Nat × Bytes)
  | [] => none
  | c :: t =>
    let mask := 2 ^ bits - 1
    if c.toNat % 2 ^ bits ≠ mask then some (c.toNat % 2 ^ bits, t) else pullHpackMore mask 0 t

/-- `pull_hpack_string`. -/
def pullHpackString (cap : Nat) (p : Bytes) : Option (HStr × Bytes) :=
  match pullHpackInt 7 p with
  | none => none
  | some (n, r) =>
    if r.length < n then none
    else if 128 ≤ byteAt p 0 then (huffDecode (r.take n) cap).map fun s => (s, r.drop n)
    else some (⟨r.take n, n, false, (r.take n).any isUpper⟩, r.drop n)

/-- `eq_ascii_ci`. -/
def eqAsciiCi (s : HStr) (lit : Bytes) : Bool :=
  !s.truncated && s.full == lit.length && asciiEq s.bytes lit

/-- `static_status`. -/
def staticStatus (idx : Nat) : Nat :=
  if 8 ≤ idx ∧ idx ≤ 14 then [200, 204, 206, 304, 400, 404, 500].getD (idx - 8) 0 else 0

/-- `name_is_forbidden`. -/
def nameIsForbidden (s : HStr) : Bool :=
  eqAsciiCi s (ascii ['c', 'o', 'n', 'n', 'e', 'c', 't', 'i', 'o', 'n']) ||
  eqAsciiCi s (ascii ['k', 'e', 'e', 'p', '-', 'a', 'l', 'i', 'v', 'e']) ||
  eqAsciiCi s (ascii ['p', 'r', 'o', 'x', 'y', '-', 'c', 'o', 'n', 'n', 'e', 'c', 't', 'i', 'o', 'n']) ||
  eqAsciiCi s (ascii ['t', 'r', 'a', 'n', 's', 'f', 'e', 'r', '-', 'e', 'n', 'c', 'o', 'd', 'i', 'n', 'g']) ||
  eqAsciiCi s (ascii ['u', 'p', 'g', 'r', 'a', 'd', 'e'])

/-- `static_index_is_forbidden`. -/
def staticIndexIsForbidden (idx : Nat) : Bool :=
  idx == 57

/-- `status_from_value`. -/
def statusFromValue (v : HStr) : Option Nat :=
  if v.truncated ∨ v.full ≠ 3 then none
  else if byteAt v.bytes 0 < 0x31 ∨ 0x35 < byteAt v.bytes 0 ∨ !(v.bytes.drop 1).all isDigit then none
  else some ((byteAt v.bytes 0 - 0x30) * 100 + (byteAt v.bytes 1 - 0x30) * 10 + (byteAt v.bytes 2 - 0x30))

/-- A representation in a header block. -/
inductive HField
  | indexed (idx : Nat)
  | sizeUpdate (size : Nat)
  | literal (idx : Nat) (name value : HStr)
  deriving DecidableEq, Repr

def hpackNameMax : Nat := 256

def hpackValueMax : Nat := 32

/-- What `parse_hpack` pulls off the front of a block. -/
def pullField (p : Bytes) : Option (HField × Bytes) :=
  if 128 ≤ byteAt p 0 then (pullHpackInt 7 p).map fun r => (.indexed r.1, r.2)
  else if byteAt p 0 / 32 = 1 then (pullHpackInt 5 p).map fun r => (.sizeUpdate r.1, r.2)
  else if 64 ≤ byteAt p 0 then none
  else
    match pullHpackInt 4 p with
    | none => none
    | some (idx, r) =>
      if 61 < idx then none
      else
        match if idx = 0 then pullHpackString hpackNameMax r else some (⟨[], 0, false, false⟩, r) with
        | none => none
        | some (name, r) => (pullHpackString hpackValueMax r).map fun v => (.literal idx name v.1, v.2)

/-- What `parse_hpack` has seen of a block. -/
structure HpackScan where
  statusCount : Nat
  sawRegular : Bool
  sawField : Bool
  sizeUpdates : Nat
  status : Nat
  cfRay : Bool
  server : Bool
  deriving DecidableEq, Repr

def HpackScan.empty : HpackScan :=
  ⟨0, false, false, 0, 0, false, false⟩

def colonByte : UInt8 := 0x3A

def statusName : Bytes :=
  ascii [':', 's', 't', 'a', 't', 'u', 's']

def serverName : Bytes :=
  ascii ['s', 'e', 'r', 'v', 'e', 'r']

def cfRayName : Bytes :=
  ascii ['c', 'f', '-', 'r', 'a', 'y']

def cloudflareName : Bytes :=
  ascii ['c', 'l', 'o', 'u', 'd', 'f', 'l', 'a', 'r', 'e']

/-- A `:status` field with its value. -/
def seeStatus (trailers : Bool) (s : HpackScan) (isStatus : Bool) (status : Option Nat) : HpackScan × Bool :=
  if trailers ∨ !isStatus ∨ s.sawRegular then (s, false)
  else
    let s := { s with statusCount := s.statusCount + 1 }
    if 1 < s.statusCount then (s, false)
    else
      match status with
      | none => (s, false)
      | some v => ({ s with status := v, sawField := true }, true)

/-- A regular field. -/
def seeRegular (s : HpackScan) (cfRay server : Bool) : HpackScan :=
  { s with sawRegular := true, sawField := true, cfRay := s.cfRay || cfRay, server := s.server || server }

/-- `parse_hpack` on one representation. -/
def seeField (trailers : Bool) (s : HpackScan) : HField → HpackScan × Bool
  | .indexed idx =>
    if idx = 0 ∨ 61 < idx then (s, false)
    else if idx ≤ 14 then seeStatus trailers s (8 ≤ idx && idx ≤ 14) (some (staticStatus idx))
    else if staticIndexIsForbidden idx then (s, false)
    else (seeRegular s false false, true)
  | .sizeUpdate size =>
    if s.sawField ∨ 2 < s.sizeUpdates + 1 ∨ size ≠ 0 then (s, false)
    else ({ s with sizeUpdates := s.sizeUpdates + 1 }, true)
  | .literal idx name value =>
    if idx = 0 then
      if name.full = 0 ∨ name.hasUpper ∨ nameIsForbidden name then (s, false)
      else if name.bytes.head? = some colonByte then
        seeStatus trailers s (eqAsciiCi name statusName) (statusFromValue value)
      else
        (seeRegular s (eqAsciiCi name cfRayName) (eqAsciiCi name serverName && eqAsciiCi value cloudflareName), true)
    else if staticIndexIsForbidden idx then (s, false)
    else if idx ≤ 14 then seeStatus trailers s (8 ≤ idx && idx ≤ 14) (statusFromValue value)
    else (seeRegular s false (idx == 54 && eqAsciiCi value cloudflareName), true)

/-- `parse_hpack`: what it saw, and whether the block is in order. -/
def hpackLoop (trailers : Bool) : Nat → HpackScan → Bytes → HpackScan × Bool
  | _, s, [] => (s, true)
  | 0, s, _ :: _ => (s, false)
  | n + 1, s, c :: t =>
    match pullField (c :: t) with
    | none => (s, false)
    | some (f, r) =>
      let (s', ok) := seeField trailers s f
      if ok then hpackLoop trailers n s' r else (s', false)

/-- `parse_hpack`. -/
def parseHpack (p : Bytes) (trailers : Bool) : HpackScan × Bool :=
  hpackLoop trailers p.length .empty p

/-- What a block writes into the event of its stream. -/
def HpackScan.apply (s : HpackScan) (ev : HttpEvent) : HttpEvent :=
  let ev := if s.status = 0 then ev else { ev with status := s.status }
  let ev := if s.cfRay then ev.flag .cfRay else ev
  if s.server then ev.flag .serverCloudflare else ev

end Qanat
