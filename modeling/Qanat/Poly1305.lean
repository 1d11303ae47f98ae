import Qanat.General.Poly1305
import Qanat.TlsTypes

namespace Qanat

open Limbs (fit leBytes)
open Splice (splice)

section Common

/-- What differs between the two sizes of limbs: the key (with its pad), the accumulator, `poly_setup`, the body of the
loop of `poly_run_c`, and `poly_done` behind the last block. A sum or a product that does not fit its type is an error
here and below, and so is a value that a conversion cuts short. -/
structure PolyRadix (R H : Type) where
  setup : Bytes → R
  zero : H
  block : R → H → Bytes → Bool → Option H
  finish : R → H → Option Bytes

/-- `poly`. -/
structure Poly (R H : Type) where
  r : R
  h : H
  buf : Bytes
  n : Nat

variable {R H : Type} (P : PolyRadix R H)

/-- `qn_poly1305_init`; what the buffer holds does not matter. -/
def polyInit (key buf : Bytes) : Poly R H where
  r := P.setup key
  h := P.zero
  buf := buf
  n := 0

/-- `poly_run`. -/
def polyRun (r : R) (h : H) (m : Bytes) (full : Bool) : Option H :=
  if 16 ≤ m.length then do
    let h ← P.block r h m full
    polyRun r h (m.drop 16) full
  else some h
termination_by m.length
decreasing_by
  rw [List.length_drop]
  omega

/-- `qn_poly1305_update` in front of its whole blocks: the bytes that complete the buffer. -/
def polyFill (st : Poly R H) (m : Bytes) : Option (Poly R H × Bytes) :=
  if st.n ≠ 0 then
    let take := min (16 - st.n) m.length
    let st := { st with buf := splice st.buf st.n (m.take take), n := st.n + take }
    if st.n = 16 then do
      let h ← polyRun P st.r st.h st.buf true
      some ({ st with h := h, n := 0 }, m.drop take)
    else some (st, m.drop take)
  else some (st, m)

/-- `qn_poly1305_update`. -/
def polyUpdate (st : Poly R H) (m : Bytes) : Option (Poly R H) := do
  let (st, m) ← polyFill P st m
  let whole := m.length / 16 * 16
  let h ← if 16 ≤ m.length then polyRun P st.r st.h (m.take whole) true else some st.h
  let st := { st with h := h }
  let m := if 16 ≤ m.length then m.drop whole else m
  some (if m.length ≠ 0 then { st with buf := splice st.buf 0 m, n := m.length } else st)

/-- `qn_poly1305_final`. -/
def polyFinal (st : Poly R H) : Option Bytes := do
  let h ← if st.n ≠ 0 then
      let buf := splice st.buf st.n [1]
      polyRun P st.r st.h (splice buf (st.n + 1) (List.replicate (16 - (st.n + 1)) 0)) false
    else some st.h
  P.finish st.r h

end Common

section Wide

def m44 : Nat := 0xfffffffffff
def m42 : Nat := 0x3ffffffffff

/-- `ld64le`. -/
def ld64le (p : Bytes) : Nat :=
  (List.range 8).foldl (fun v i => v ||| byteAt p i <<< (8 * i)) 0

/-- `st64le`. -/
def st64le (v : Nat) : Bytes :=
  (List.range 8).map fun i => UInt8.ofNat (v >>> (8 * i))

/-- A shift to the left in 64 bits, which drops the high bits. -/
def shl64 (v k : Nat) : Nat :=
  v <<< k % 2 ^ 64

/-- A difference in `w` bits that may go around. -/
def subWrap (w a b : Nat) : Nat :=
  (a + 2 ^ w - b) % 2 ^ w

/-- The key in limbs of 44 bits, and the pad. -/
structure Key44 where
  r0 : Nat
  r1 : Nat
  r2 : Nat
  pad0 : Nat
  pad1 : Nat

structure Acc44 where
  h0 : Nat
  h1 : Nat
  h2 : Nat

/-- `poly_setup` with 3 limbs. -/
def polySetup44 (key : Bytes) : Key44 :=
  let t0 := ld64le key
  let t1 := ld64le (key.drop 8)
  { r0 := t0 &&& 0xffc0fffffff
    r1 := (t0 >>> 44 ||| shl64 t1 20) &&& 0xfffffc0ffff
    r2 := t1 >>> 24 &&& 0x00ffffffc0f
    pad0 := ld64le (key.drop 16)
    pad1 := ld64le (key.drop 24) }

/-- The body of the loop of `poly_run_c` with 3 limbs. -/
def polyBlock44 (k : Key44) (h : Acc44) (m : Bytes) (full : Bool) : Option Acc44 := do
  let hibit := if full then 1 <<< 40 else 0
  let s1 ← fit 64 (k.r1 * 20)
  let s2 ← fit 64 (k.r2 * 20)
  let t0 := ld64le m
  let t1 := ld64le (m.drop 8)
  let h0 ← fit 64 (h.h0 + (t0 &&& m44))
  let h1 ← fit 64 (h.h1 + ((t0 >>> 44 ||| shl64 t1 20) &&& m44))
  let h2 ← fit 64 (h.h2 + ((t1 >>> 24 &&& m42) ||| hibit))
  let d0 ← fit 128 (h0 * k.r0 + h1 * s2 + h2 * s1)
  let d1 ← fit 128 (h0 * k.r1 + h1 * k.r0 + h2 * s2)
  let d2 ← fit 128 (h0 * k.r2 + h1 * k.r1 + h2 * k.r0)
  let c ← fit 64 (d0 >>> 44)
  let h0 ← fit 64 (d0 % 2 ^ 64 &&& m44)
  let d1 ← fit 128 (d1 + c)
  let c ← fit 64 (d1 >>> 44)
  let h1 ← fit 64 (d1 % 2 ^ 64 &&& m44)
  let d2 ← fit 128 (d2 + c)
  let c ← fit 64 (d2 >>> 42)
  let h2 ← fit 64 (d2 % 2 ^ 64 &&& m42)
  let c5 ← fit 64 (c * 5)
  let h0 ← fit 64 (h0 + c5)
  let c ← fit 64 (h0 >>> 44)
  let h0 ← fit 64 (h0 &&& m44)
  let h1 ← fit 64 (h1 + c)
  some ⟨h0, h1, h2⟩

/-- The carries of `poly_done` with 3 limbs. -/
def polyCarry44 (h : Acc44) : Option Acc44 := do
  let c ← fit 64 (h.h1 >>> 44)
  let h1 ← fit 64 (h.h1 &&& m44)
  let h2 ← fit 64 (h.h2 + c)
  let c ← fit 64 (h2 >>> 42)
  let h2 ← fit 64 (h2 &&& m42)
  let h0 ← fit 64 (h.h0 + c * 5)
  let c ← fit 64 (h0 >>> 44)
  let h0 ← fit 64 (h0 &&& m44)
  let h1 ← fit 64 (h1 + c)
  let c ← fit 64 (h1 >>> 44)
  let h1 ← fit 64 (h1 &&& m44)
  let h2 ← fit 64 (h2 + c)
  let c ← fit 64 (h2 >>> 42)
  let h2 ← fit 64 (h2 &&& m42)
  let h0 ← fit 64 (h0 + c * 5)
  let c ← fit 64 (h0 >>> 44)
  let h0 ← fit 64 (h0 &&& m44)
  let h1 ← fit 64 (h1 + c)
  some ⟨h0, h1, h2⟩

/-- A value or another one by a mask of ones or zeros. -/
def maskSelect (w c h g : Nat) : Nat :=
  (h &&& (2 ^ w - 1 - c)) ||| (g &&& c)

/-- The choice of `poly_done` between the accumulator and the accumulator less the prime, with 3 limbs. -/
def polyReduce44 (h : Acc44) : Option Acc44 := do
  let g0 ← fit 64 (h.h0 + 5)
  let c ← fit 64 (g0 >>> 44)
  let g0 ← fit 64 (g0 &&& m44)
  let g1 ← fit 64 (h.h1 + c)
  let c ← fit 64 (g1 >>> 44)
  let g1 ← fit 64 (g1 &&& m44)
  let g2 ← fit 64 (h.h2 + c)
  let g2 := subWrap 64 g2 (1 <<< 42)
  let c := subWrap 64 (g2 >>> 63) 1
  some ⟨maskSelect 64 c h.h0 g0, maskSelect 64 c h.h1 g1, maskSelect 64 c h.h2 g2⟩

/-- The sum with the pad, and the tag, with 3 limbs. -/
def polyPad44 (k : Key44) (h : Acc44) : Option Bytes := do
  let t0 := k.pad0
  let t1 := k.pad1
  let h0 ← fit 64 (h.h0 + (t0 &&& m44))
  let c ← fit 64 (h0 >>> 44)
  let h0 ← fit 64 (h0 &&& m44)
  let h1 ← fit 64 (h.h1 + (((t0 >>> 44 ||| shl64 t1 20) &&& m44) + c))
  let c ← fit 64 (h1 >>> 44)
  let h1 ← fit 64 (h1 &&& m44)
  let h2 ← fit 64 (h.h2 + ((t1 >>> 24 &&& m42) + c))
  let h2 ← fit 64 (h2 &&& m42)
  some (st64le (h0 ||| shl64 h1 44) ++ st64le (h1 >>> 20 ||| shl64 h2 24))

/-- `poly_done` with 3 limbs, behind the last block. -/
def polyDone44 (k : Key44) (h : Acc44) : Option Bytes := do
  let h ← polyCarry44 h
  let h ← polyReduce44 h
  polyPad44 k h

def radix44 : PolyRadix Key44 Acc44 where
  setup := polySetup44
  zero := ⟨0, 0, 0⟩
  block := polyBlock44
  finish := polyDone44

end Wide

section Narrow

def m26 : Nat := 0x03ffffff

/-- `ld32le`. -/
def ld32le (p : Bytes) : Nat :=
  byteAt p 0 ||| byteAt p 1 <<< 8 ||| byteAt p 2 <<< 16 ||| byteAt p 3 <<< 24

def shl32 (v k : Nat) : Nat :=
  v <<< k % 2 ^ 32

/-- The key in limbs of 26 bits, and the pad. -/
structure Key26 where
  r0 : Nat
  r1 : Nat
  r2 : Nat
  r3 : Nat
  r4 : Nat
  pad0 : Nat
  pad1 : Nat
  pad2 : Nat
  pad3 : Nat

structure Acc26 where
  h0 : Nat
  h1 : Nat
  h2 : Nat
  h3 : Nat
  h4 : Nat

/-- `poly_setup` with 5 limbs. -/
def polySetup26 (key : Bytes) : Key26 where
  r0 := ld32le key &&& 0x03ffffff
  r1 := ld32le (key.drop 3) >>> 2 &&& 0x03ffff03
  r2 := ld32le (key.drop 6) >>> 4 &&& 0x03ffc0ff
  r3 := ld32le (key.drop 9) >>> 6 &&& 0x03f03fff
  r4 := ld32le (key.drop 12) >>> 8 &&& 0x000fffff
  pad0 := ld32le (key.drop 16)
  pad1 := ld32le (key.drop 20)
  pad2 := ld32le (key.drop 24)
  pad3 := ld32le (key.drop 28)

/-- The body of the loop of `poly_run_c` with 5 limbs. -/
def polyBlock26 (k : Key26) (h : Acc26) (m : Bytes) (full : Bool) : Option Acc26 := do
  let hibit := if full then 1 <<< 24 else 0
  let s1 ← fit 32 (k.r1 * 5)
  let s2 ← fit 32 (k.r2 * 5)
  let s3 ← fit 32 (k.r3 * 5)
  let s4 ← fit 32 (k.r4 * 5)
  let h0 ← fit 32 (h.h0 + (ld32le m &&& m26))
  let h1 ← fit 32 (h.h1 + (ld32le (m.drop 3) >>> 2 &&& m26))
  let h2 ← fit 32 (h.h2 + (ld32le (m.drop 6) >>> 4 &&& m26))
  let h3 ← fit 32 (h.h3 + (ld32le (m.drop 9) >>> 6 &&& m26))
  let h4 ← fit 32 (h.h4 + (ld32le (m.drop 12) >>> 8 ||| hibit))
  let d0 ← fit 64 (h0 * k.r0 + h1 * s4 + h2 * s3 + h3 * s2 + h4 * s1)
  let d1 ← fit 64 (h0 * k.r1 + h1 * k.r0 + h2 * s4 + h3 * s3 + h4 * s2)
  let d2 ← fit 64 (h0 * k.r2 + h1 * k.r1 + h2 * k.r0 + h3 * s4 + h4 * s3)
  let d3 ← fit 64 (h0 * k.r3 + h1 * k.r2 + h2 * k.r1 + h3 * k.r0 + h4 * s4)
  let d4 ← fit 64 (h0 * k.r4 + h1 * k.r3 + h2 * k.r2 + h3 * k.r1 + h4 * k.r0)
  let c ← fit 32 (d0 >>> 26)
  let h0 ← fit 32 (d0 % 2 ^ 32 &&& m26)
  let d1 ← fit 64 (d1 + c)
  let c ← fit 32 (d1 >>> 26)
  let h1 ← fit 32 (d1 % 2 ^ 32 &&& m26)
  let d2 ← fit 64 (d2 + c)
  let c ← fit 32 (d2 >>> 26)
  let h2 ← fit 32 (d2 % 2 ^ 32 &&& m26)
  let d3 ← fit 64 (d3 + c)
  let c ← fit 32 (d3 >>> 26)
  let h3 ← fit 32 (d3 % 2 ^ 32 &&& m26)
  let d4 ← fit 64 (d4 + c)
  let c ← fit 32 (d4 >>> 26)
  let h4 ← fit 32 (d4 % 2 ^ 32 &&& m26)
  let c5 ← fit 32 (c * 5)
  let h0 ← fit 32 (h0 + c5)
  let c ← fit 32 (h0 >>> 26)
  let h0 ← fit 32 (h0 &&& m26)
  let h1 ← fit 32 (h1 + c)
  some ⟨h0, h1, h2, h3, h4⟩

/-- The carries of `poly_done` with 5 limbs. -/
def polyCarry26 (h : Acc26) : Option Acc26 := do
  let c ← fit 32 (h.h1 >>> 26)
  let h1 ← fit 32 (h.h1 &&& m26)
  let h2 ← fit 32 (h.h2 + c)
  let c ← fit 32 (h2 >>> 26)
  let h2 ← fit 32 (h2 &&& m26)
  let h3 ← fit 32 (h.h3 + c)
  let c ← fit 32 (h3 >>> 26)
  let h3 ← fit 32 (h3 &&& m26)
  let h4 ← fit 32 (h.h4 + c)
  let c ← fit 32 (h4 >>> 26)
  let h4 ← fit 32 (h4 &&& m26)
  let h0 ← fit 32 (h.h0 + c * 5)
  let c ← fit 32 (h0 >>> 26)
  let h0 ← fit 32 (h0 &&& m26)
  let h1 ← fit 32 (h1 + c)
  some ⟨h0, h1, h2, h3, h4⟩

/-- The choice of `poly_done` with 5 limbs. -/
def polyReduce26 (h : Acc26) : Option Acc26 := do
  let g0 ← fit 32 (h.h0 + 5)
  let c ← fit 32 (g0 >>> 26)
  let g0 ← fit 32 (g0 &&& m26)
  let g1 ← fit 32 (h.h1 + c)
  let c ← fit 32 (g1 >>> 26)
  let g1 ← fit 32 (g1 &&& m26)
  let g2 ← fit 32 (h.h2 + c)
  let c ← fit 32 (g2 >>> 26)
  let g2 ← fit 32 (g2 &&& m26)
  let g3 ← fit 32 (h.h3 + c)
  let c ← fit 32 (g3 >>> 26)
  let g3 ← fit 32 (g3 &&& m26)
  let g4 ← fit 32 (h.h4 + c)
  let g4 := subWrap 32 g4 (1 <<< 26)
  let mask := subWrap 32 (g4 >>> 31) 1
  some ⟨maskSelect 32 mask h.h0 g0, maskSelect 32 mask h.h1 g1, maskSelect 32 mask h.h2 g2,
    maskSelect 32 mask h.h3 g3, maskSelect 32 mask h.h4 g4⟩

/-- The sum with the pad, and the tag, with 5 limbs. -/
def polyPad26 (k : Key26) (h : Acc26) : Option Bytes := do
  let h0 := (h.h0 ||| shl32 h.h1 26) &&& 0xffffffff
  let h1 := (h.h1 >>> 6 ||| shl32 h.h2 20) &&& 0xffffffff
  let h2 := (h.h2 >>> 12 ||| shl32 h.h3 14) &&& 0xffffffff
  let h3 := (h.h3 >>> 18 ||| shl32 h.h4 8) &&& 0xffffffff
  let f ← fit 64 (h0 + k.pad0)
  let h0 := f % 2 ^ 32
  let f ← fit 64 (h1 + k.pad1 + f >>> 32)
  let h1 := f % 2 ^ 32
  let f ← fit 64 (h2 + k.pad2 + f >>> 32)
  let h2 := f % 2 ^ 32
  let f ← fit 64 (h3 + k.pad3 + f >>> 32)
  let h3 := f % 2 ^ 32
  some (st64le (h0 ||| shl64 h1 32) ++ st64le (h2 ||| shl64 h3 32))

/-- `poly_done` with 5 limbs, behind the last block. -/
def polyDone26 (k : Key26) (h : Acc26) : Option Bytes := do
  let h ← polyCarry26 h
  let h ← polyReduce26 h
  polyPad26 k h

def radix26 : PolyRadix Key26 Acc26 where
  setup := polySetup26
  zero := ⟨0, 0, 0, 0, 0⟩
  block := polyBlock26
  finish := polyDone26

end Narrow

end Qanat
