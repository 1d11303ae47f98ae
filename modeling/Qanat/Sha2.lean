import Qanat.General.Sha2
import Qanat.General.Splice
import Qanat.TlsTypes

namespace Qanat

open Sha2 (Words)
open Splice (splice)

section Words

/-- `ROR32` and `ROR64`. -/
def ror {w : Nat} (x : BitVec w) (n : Nat) : BitVec w :=
  x >>> n ||| x <<< (w - n)

/-- `K256`. -/
def k256 : List (BitVec 32) :=
  [0x428a2f98, 0x71374491, 0xb5c0fbcf, 0xe9b5dba5, 0x3956c25b, 0x59f111f1, 0x923f82a4, 0xab1c5ed5, 0xd807aa98,
   0x12835b01, 0x243185be, 0x550c7dc3, 0x72be5d74, 0x80deb1fe, 0x9bdc06a7, 0xc19bf174, 0xe49b69c1, 0xefbe4786,
   0x0fc19dc6, 0x240ca1cc, 0x2de92c6f, 0x4a7484aa, 0x5cb0a9dc, 0x76f988da, 0x983e5152, 0xa831c66d, 0xb00327c8,
   0xbf597fc7, 0xc6e00bf3, 0xd5a79147, 0x06ca6351, 0x14292967, 0x27b70a85, 0x2e1b2138, 0x4d2c6dfc, 0x53380d13,
   0x650a7354, 0x766a0abb, 0x81c2c92e, 0x92722c85, 0xa2bfe8a1, 0xa81a664b, 0xc24b8b70, 0xc76c51a3, 0xd192e819,
   0xd6990624, 0xf40e3585, 0x106aa070, 0x19a4c116, 0x1e376c08, 0x2748774c, 0x34b0bcb5, 0x391c0cb3, 0x4ed8aa4a,
   0x5b9cca4f, 0x682e6ff3, 0x748f82ee, 0x78a5636f, 0x84c87814, 0x8cc70208, 0x90befffa, 0xa4506ceb, 0xbef9a3f7,
   0xc67178f2]

/-- `K512`. -/
def k512 : List (BitVec 64) :=
  [0x428a2f98d728ae22, 0x7137449123ef65cd, 0xb5c0fbcfec4d3b2f, 0xe9b5dba58189dbbc, 0x3956c25bf348b538,
   0x59f111f1b605d019, 0x923f82a4af194f9b, 0xab1c5ed5da6d8118, 0xd807aa98a3030242, 0x12835b0145706fbe,
   0x243185be4ee4b28c, 0x550c7dc3d5ffb4e2, 0x72be5d74f27b896f, 0x80deb1fe3b1696b1, 0x9bdc06a725c71235,
   0xc19bf174cf692694, 0xe49b69c19ef14ad2, 0xefbe4786384f25e3, 0x0fc19dc68b8cd5b5, 0x240ca1cc77ac9c65,
   0x2de92c6f592b0275, 0x4a7484aa6ea6e483, 0x5cb0a9dcbd41fbd4, 0x76f988da831153b5, 0x983e5152ee66dfab,
   0xa831c66d2db43210, 0xb00327c898fb213f, 0xbf597fc7beef0ee4, 0xc6e00bf33da88fc2, 0xd5a79147930aa725,
   0x06ca6351e003826f, 0x142929670a0e6e70, 0x27b70a8546d22ffc, 0x2e1b21385c26c926, 0x4d2c6dfc5ac42aed,
   0x53380d139d95b3df, 0x650a73548baf63de, 0x766a0abb3c77b2a8, 0x81c2c92e47edaee6, 0x92722c851482353b,
   0xa2bfe8a14cf10364, 0xa81a664bbc423001, 0xc24b8b70d0f89791, 0xc76c51a30654be30, 0xd192e819d6ef5218,
   0xd69906245565a910, 0xf40e35855771202a, 0x106aa07032bbd1b8, 0x19a4c116b8d2d0c8, 0x1e376c085141ab53,
   0x2748774cdf8eeb99, 0x34b0bcb5e19b48a8, 0x391c0cb3c5c95a63, 0x4ed8aa4ae3418acb, 0x5b9cca4f7763e373,
   0x682e6ff3d6b2b8a3, 0x748f82ee5defb2fc, 0x78a5636f43172f60, 0x84c87814a1f0ab72, 0x8cc702081a6439ec,
   0x90befffa23631e28, 0xa4506cebde82bde9, 0xbef9a3f7b2c67915, 0xc67178f2e372532b, 0xca273eceea26619c,
   0xd186b8c721c0c207, 0xeada7dd6cde0eb1e, 0xf57d4f7fee6ed178, 0x06f067aa72176fba, 0x0a637dc5a2c898a6,
   0x113f9804bef90dae, 0x1b710b35131c471b, 0x28db77f523047d84, 0x32caab7b40c72493, 0x3c9ebe0a15c9bebc,
   0x431d67c49c100d4c, 0x4cc5d4becb3e42b6, 0x597f299cfc657e2a, 0x5fcb6fab3ad6faec, 0x6c44198c4a475817]

/-- A byte as a word. -/
def wordByte (w : Nat) (p : Bytes) (i : Nat) : BitVec w :=
  BitVec.ofNat w (p.getD i 0).toNat

/-- `ld32`. -/
def ld32 (p : Bytes) : BitVec 32 :=
  wordByte 32 p 0 <<< 24 ||| wordByte 32 p 1 <<< 16 ||| wordByte 32 p 2 <<< 8 ||| wordByte 32 p 3

/-- A conversion to `uint8_t`. -/
def toByte {w : Nat} (v : BitVec w) : UInt8 :=
  UInt8.ofNat v.toNat

/-- `st32`. -/
def st32 (v : BitVec 32) : Bytes :=
  [toByte (v >>> 24), toByte (v >>> 16), toByte (v >>> 8), toByte v]

/-- `ld64`. -/
def ld64 (p : Bytes) : BitVec 64 :=
  (List.range 8).foldl (fun v i => v <<< 8 ||| wordByte 64 p i) 0

/-- `st64`. -/
def st64 (v : BitVec 64) : Bytes :=
  (List.range 8).map fun i => toByte (v >>> (56 - 8 * i))

end Words

section Sha256

/-- A step of the loop that extends the 16 words of a block to 64. -/
def sha256Extend (w : List (BitVec 32)) (i : Nat) : List (BitVec 32) :=
  let x := fun k => w.getD (i - k) 0
  let s0 := ror (x 15) 7 ^^^ ror (x 15) 18 ^^^ x 15 >>> 3
  let s1 := ror (x 2) 17 ^^^ ror (x 2) 19 ^^^ x 2 >>> 10
  w ++ [x 16 + s0 + x 7 + s1]

/-- A round of `sha256_block`. -/
def sha256Round (w : List (BitVec 32)) (v : Words 32) (i : Nat) : Words 32 :=
  let S1 := ror v.e 6 ^^^ ror v.e 11 ^^^ ror v.e 25
  let ch := (v.e &&& v.f) ^^^ (~~~v.e &&& v.g)
  let S0 := ror v.a 2 ^^^ ror v.a 13 ^^^ ror v.a 22
  let maj := (v.a &&& v.b) ^^^ (v.a &&& v.c) ^^^ (v.b &&& v.c)
  let t1 := v.h + S1 + ch + k256.getD i 0 + w.getD i 0
  let t2 := S0 + maj
  ⟨t1 + t2, v.a, v.b, v.c, v.d + t1, v.e, v.f, v.g⟩

/-- `sha256_block`. -/
def sha256Block (h : Words 32) (b : Bytes) : Words 32 :=
  let w := (List.range 16).map fun i => ld32 (b.drop (4 * i))
  let w := (List.range' 16 48).foldl sha256Extend w
  let v := (List.range 64).foldl (sha256Round w) h
  ⟨h.a + v.a, h.b + v.b, h.c + v.c, h.d + v.d, h.e + v.e, h.f + v.f, h.g + v.g, h.h + v.h⟩

/-- `qn_sha256`. -/
structure Sha256 where
  h : Words 32
  len : BitVec 64
  buf : Bytes
  n : Nat

/-- `qn_sha256_init`; what the buffer holds does not matter. -/
def sha256Init (buf : Bytes) : Sha256 where
  h := ⟨0x6a09e667, 0xbb67ae85, 0x3c6ef372, 0xa54ff53a, 0x510e527f, 0x9b05688c, 0x1f83d9ab, 0x5be0cd19⟩
  len := 0
  buf := buf
  n := 0

/-- `sha256_blocks`. -/
def sha256Blocks : Words 32 → Bytes → Nat → Words 32
  | h, _, 0 => h
  | h, p, blocks + 1 => sha256Blocks (sha256Block h p) (p.drop 64) blocks

/-- `qn_sha256_update` behind its first part, which leaves the buffer empty. -/
def sha256Whole (s : Sha256) (d : Bytes) : Sha256 :=
  let blocks := d.length / 64
  let s := if 64 ≤ d.length then { s with h := sha256Blocks s.h d blocks } else s
  let d := if 64 ≤ d.length then d.drop (blocks * 64) else d
  if d.length ≠ 0 then { s with buf := splice s.buf 0 d, n := d.length } else s

/-- `qn_sha256_update`. -/
def sha256Update (s : Sha256) (d : Bytes) : Sha256 :=
  let s := { s with len := s.len + BitVec.ofNat 64 d.length }
  if s.n ≠ 0 then
    let take := min (64 - s.n) d.length
    let s := { s with buf := splice s.buf s.n (d.take take), n := s.n + take }
    if s.n < 64 then s
    else sha256Whole { s with h := sha256Block s.h s.buf, n := 0 } (d.drop take)
  else sha256Whole s d

/-- `qn_sha256_final`; it works on a copy of the state. -/
def sha256Final (s : Sha256) : Bytes :=
  let bits := s.len <<< 3
  let tail := (List.range 8).map fun i => toByte (bits >>> (56 - 8 * i))
  let s := { s with buf := splice s.buf s.n [0x80], n := s.n + 1 }
  let s := if 56 < s.n then
      let buf := splice s.buf s.n (List.replicate (64 - s.n) 0)
      { s with buf := buf, h := sha256Block s.h buf, n := 0 }
    else s
  let buf := splice (splice s.buf s.n (List.replicate (56 - s.n) 0)) 56 tail
  (sha256Block s.h buf).toList.flatMap st32

end Sha256

section Sha512

/-- The step of the message schedule in round `i` of `sha512_block_c`. -/
def sha512Extend (w : Nat → BitVec 64) (i : Nat) : Nat → BitVec 64 :=
  let j := i &&& 15
  if 16 ≤ i then
    let x0 := w ((j + 1) &&& 15)
    let x1 := w ((j + 14) &&& 15)
    let s0 := ror x0 1 ^^^ ror x0 8 ^^^ x0 >>> 7
    let s1 := ror x1 19 ^^^ ror x1 61 ^^^ x1 >>> 6
    fun k => if k = j then w j + (s0 + w ((j + 9) &&& 15) + s1) else w k
  else w

/-- A round of `sha512_block_c`: the sixteen words of the schedule and the working variables. -/
def sha512Round (s : (Nat → BitVec 64) × Words 64) (i : Nat) : (Nat → BitVec 64) × Words 64 :=
  let w := sha512Extend s.1 i
  let v := s.2
  let S1 := ror v.e 14 ^^^ ror v.e 18 ^^^ ror v.e 41
  let ch := (v.e &&& v.f) ^^^ (~~~v.e &&& v.g)
  let S0 := ror v.a 28 ^^^ ror v.a 34 ^^^ ror v.a 39
  let maj := (v.a &&& v.b) ^^^ (v.a &&& v.c) ^^^ (v.b &&& v.c)
  let t1 := v.h + S1 + ch + k512.getD i 0 + w (i &&& 15)
  let t2 := S0 + maj
  (w, ⟨t1 + t2, v.a, v.b, v.c, v.d + t1, v.e, v.f, v.g⟩)

/-- `sha512_block_c`. -/
def sha512Block (h : Words 64) (b : Bytes) : Words 64 :=
  let w := fun i => ld64 (b.drop (8 * i))
  let v := ((List.range 80).foldl sha512Round (w, h)).2
  ⟨h.a + v.a, h.b + v.b, h.c + v.c, h.d + v.d, h.e + v.e, h.f + v.f, h.g + v.g, h.h + v.h⟩

/-- `qn_sha512`. -/
structure Sha512 where
  h : Words 64
  lenLo : BitVec 64
  lenHi : BitVec 64
  buf : Bytes
  n : Nat
  outlen : Nat

/-- `qn_sha512_init`. -/
def sha512Init (outlen : Nat) (buf : Bytes) : Sha512 where
  h := if outlen = 48 then
      ⟨0xcbbb9d5dc1059ed8, 0x629a292a367cd507, 0x9159015a3070dd17, 0x152fecd8f70e5939,
        0x67332667ffc00b31, 0x8eb44a8768581511, 0xdb0c2e0d64f98fa7, 0x47b5481dbefa4fa4⟩
    else
      ⟨0x6a09e667f3bcc908, 0xbb67ae8584caa73b, 0x3c6ef372fe94f82b, 0xa54ff53a5f1d36f1,
        0x510e527fade682d1, 0x9b05688c2b3e6c1f, 0x1f83d9abfb41bd6b, 0x5be0cd19137e2179⟩
  lenLo := 0
  lenHi := 0
  buf := buf
  n := 0
  outlen := if outlen = 48 then 48 else 64

/-- The loop of `qn_sha512_update`; every turn takes at least one byte. -/
def sha512Take : Nat → Sha512 → Bytes → Sha512
  | 0, s, _ => s
  | fuel + 1, s, d =>
    if d.length ≠ 0 then
      let take := min (128 - s.n) d.length
      let s := { s with buf := splice s.buf s.n (d.take take), n := s.n + take }
      let s := if s.n = 128 then { s with h := sha512Block s.h s.buf, n := 0 } else s
      sha512Take fuel s (d.drop take)
    else s

/-- `qn_sha512_update`. -/
def sha512Update (s : Sha512) (d : Bytes) : Sha512 :=
  let lo := s.lenLo + BitVec.ofNat 64 d.length
  let hi := if lo < s.lenLo then s.lenHi + 1 else s.lenHi
  sha512Take (d.length + 1) { s with lenLo := lo, lenHi := hi } d

/-- `qn_sha512_final`; it works on a copy of the state. -/
def sha512Final (s : Sha512) : Bytes :=
  let lo := s.lenLo <<< 3
  let hi := s.lenHi <<< 3 ||| s.lenLo >>> 61
  let tail := st64 hi ++ st64 lo
  let s := { s with buf := splice s.buf s.n [0x80], n := s.n + 1 }
  let s := if 112 < s.n then
      let buf := splice s.buf s.n (List.replicate (128 - s.n) 0)
      { s with buf := buf, h := sha512Block s.h buf, n := 0 }
    else s
  let buf := splice (splice s.buf s.n (List.replicate (112 - s.n) 0)) 112 tail
  ((sha512Block s.h buf).toList.take (s.outlen / 8)).flatMap st64

end Sha512

section Hash

/-- `qn_hash`. -/
inductive QnHash
  | s256 (s : Sha256)
  | s384 (s : Sha512)

/-- `qn_hash_init`; what the buffer holds does not matter. -/
def qnHashInit (id : HashId) (buf : Bytes) : QnHash :=
  match id with
  | .sha384 => .s384 (sha512Init 48 buf)
  | .sha256 => .s256 (sha256Init buf)

/-- `qn_hash_update`. -/
def qnHashUpdate (h : QnHash) (d : Bytes) : QnHash :=
  match h with
  | .s384 s => .s384 (sha512Update s d)
  | .s256 s => .s256 (sha256Update s d)

/-- `qn_hash_final`. -/
def qnHashFinal (h : QnHash) : Bytes :=
  match h with
  | .s384 s => sha512Final s
  | .s256 s => sha256Final s

end Hash

end Qanat
