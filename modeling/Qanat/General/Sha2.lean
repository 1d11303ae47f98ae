import Qanat.General.BlockStream

namespace Sha2

/-- The bits of the largest number whose `n`th power is at most `x`, from the bit `i` down. -/
def rootFrom (n x : Nat) : Nat → Nat → Nat
  | 0, r => r
  | i + 1, r => rootFrom n x i (if (r + 2 ^ i) ^ n ≤ x then r + 2 ^ i else r)

/-- The first `w` bits of the fractional part of the `n`th root of `p`. -/
def fracBits (n w p : Nat) : Nat :=
  rootFrom n (p * 2 ^ (n * w)) (w + 5) 0 % 2 ^ w

/-- The first eighty primes. -/
def primes : List Nat :=
  [2, 3, 5, 7, 11, 13, 17, 19, 23, 29, 31, 37, 41, 43, 47, 53, 59, 61, 67, 71, 73, 79, 83, 89, 97, 101, 103, 107, 109,
    113, 127, 131, 137, 139, 149, 151, 157, 163, 167, 173, 179, 181, 191, 193, 197, 199, 211, 223, 227, 229, 233, 239,
    241, 251, 257, 263, 269, 271, 277, 281, 283, 293, 307, 311, 313, 317, 331, 337, 347, 349, 353, 359, 367, 373, 379,
    383, 389, 397, 401, 409]

/-- The eight working variables, and the eight words of a hash value. -/
@[ext]
structure Words (w : Nat) where
  a : BitVec w
  b : BitVec w
  c : BitVec w
  d : BitVec w
  e : BitVec w
  f : BitVec w
  g : BitVec w
  h : BitVec w
  deriving DecidableEq

def Words.toList {w : Nat} (v : Words w) : List (BitVec w) :=
  [v.a, v.b, v.c, v.d, v.e, v.f, v.g, v.h]

/-- The sizes and the rotations of one of the hash functions; a third number is a shift in the two small functions. -/
structure Family (w : Nat) where
  rounds : Nat
  lengthBytes : Nat
  big0 : Nat × Nat × Nat
  big1 : Nat × Nat × Nat
  small0 : Nat × Nat × Nat
  small1 : Nat × Nat × Nat

variable {w : Nat} (F : Family w)

def wordBytes (w : Nat) : Nat :=
  w / 8

def blockBytes (w : Nat) : Nat :=
  16 * wordBytes w

def bigSigma (r : Nat × Nat × Nat) (x : BitVec w) : BitVec w :=
  x.rotateRight r.1 ^^^ x.rotateRight r.2.1 ^^^ x.rotateRight r.2.2

def smallSigma (r : Nat × Nat × Nat) (x : BitVec w) : BitVec w :=
  x.rotateRight r.1 ^^^ x.rotateRight r.2.1 ^^^ x >>> r.2.2

def choose (x y z : BitVec w) : BitVec w :=
  (x &&& y) ^^^ (~~~x &&& z)

def majority (x y z : BitVec w) : BitVec w :=
  (x &&& y) ^^^ (x &&& z) ^^^ (y &&& z)

def constant (w t : Nat) : BitVec w :=
  BitVec.ofNat w (fracBits 3 w (primes.getD t 0))

/-- A number in `n` bytes, the most significant first. -/
def bytesOf (n v : Nat) : List UInt8 :=
  (List.range n).map fun i => UInt8.ofNat (v / 256 ^ (n - 1 - i))

def valueOf (bytes : List UInt8) : Nat :=
  bytes.foldl (fun v b => v * 256 + b.toNat) 0

/-- Word `t` of a block. -/
def word (w : Nat) (block : List UInt8) (t : Nat) : BitVec w :=
  BitVec.ofNat w (valueOf ((block.drop (t * wordBytes w)).take (wordBytes w)))

/-- The message schedule. -/
def schedule (m : Nat → BitVec w) (t : Nat) : BitVec w :=
  if t < 16 then m t
  else
    smallSigma F.small1 (schedule m (t - 2)) + schedule m (t - 7) + smallSigma F.small0 (schedule m (t - 15)) +
      schedule m (t - 16)

/-- One round. -/
def round (W : Nat → BitVec w) (v : Words w) (t : Nat) : Words w :=
  let t₁ := v.h + bigSigma F.big1 v.e + choose v.e v.f v.g + constant w t + W t
  let t₂ := bigSigma F.big0 v.a + majority v.a v.b v.c
  ⟨t₁ + t₂, v.a, v.b, v.c, v.d + t₁, v.e, v.f, v.g⟩

/-- The hash value behind a block. -/
def compress (H : Words w) (block : List UInt8) : Words w :=
  let v := (List.range F.rounds).foldl (round F (schedule F (word w block))) H
  ⟨v.a + H.a, v.b + H.b, v.c + H.c, v.d + H.d, v.e + H.e, v.f + H.f, v.g + H.g, v.h + H.h⟩

/-- How many zero bytes complete the last block. -/
def padZeros (len : Nat) : Nat :=
  (blockBytes w - (len + 1 + F.lengthBytes) % blockBytes w) % blockBytes w

/-- What follows a message of `len` bytes. -/
def padding (len : Nat) : List UInt8 :=
  0x80 :: (List.replicate (padZeros F len) 0 ++ bytesOf F.lengthBytes (8 * len))

/-- The hash value of a message, the first `words` words of it. -/
def digest (iv : Words w) (words : Nat) (m : List UInt8) : List UInt8 :=
  ((BlockStream.run (compress F) (blockBytes w) iv (m ++ padding F m.length)).1.toList.take words).flatMap fun v =>
    bytesOf (wordBytes w) v.toNat

/-- Eight words from the square roots of eight primes. -/
def rootWords (w i : Nat) : Words w :=
  let r := fun k => BitVec.ofNat w (fracBits 2 w (primes.getD (i + k) 0))
  ⟨r 0, r 1, r 2, r 3, r 4, r 5, r 6, r 7⟩

/-- SHA-224 and SHA-256. -/
def family256 : Family 32 where
  rounds := 64
  lengthBytes := 8
  big0 := (2, 13, 22)
  big1 := (6, 11, 25)
  small0 := (7, 18, 3)
  small1 := (17, 19, 10)

/-- SHA-384 and SHA-512. -/
def family512 : Family 64 where
  rounds := 80
  lengthBytes := 16
  big0 := (28, 34, 39)
  big1 := (14, 18, 41)
  small0 := (1, 8, 7)
  small1 := (19, 61, 6)

def sha256 (m : List UInt8) : List UInt8 :=
  digest family256 (rootWords 32 0) 8 m

def sha384 (m : List UInt8) : List UInt8 :=
  digest family512 (rootWords 64 8) 6 m

section Facts

/-- The root is the largest number whose power is small enough. -/
theorem rootFrom_le {n x i r : Nat} (h : r ^ n ≤ x) : rootFrom n x i r ^ n ≤ x := by
  induction i generalizing r with
  | zero => exact h
  | succ i ih =>
    rw [rootFrom]
    split
    next hle => exact ih hle
    next => exact ih h

theorem lt_rootFrom {n x i r : Nat} (h : x < (r + 2 ^ i) ^ n) : x < (rootFrom n x i r + 1) ^ n := by
  induction i generalizing r with
  | zero => exact h
  | succ i ih =>
    rw [rootFrom]
    split
    next =>
      refine ih ?_
      rwa [Nat.add_assoc, ← Nat.two_mul, Nat.mul_comm, ← Nat.pow_succ]
    next hle => exact ih (Nat.not_le.mp hle)

/-- The padding completes a block, with fewer zeros than a block has bytes. -/
theorem padding_whole {len : Nat} (hw : 0 < blockBytes w) :
    (len + (padding F len).length) % blockBytes w = 0 ∧ padZeros F len < blockBytes w := by
  have hlen : (padding F len).length = 1 + (padZeros F len + F.lengthBytes) := by
    simp only [padding, List.length_cons, List.length_append, List.length_replicate, bytesOf, List.length_map,
      List.length_range]
    omega
  refine ⟨?_, Nat.mod_lt _ hw⟩
  rw [hlen, padZeros]
  have hmod := Nat.mod_lt (len + 1 + F.lengthBytes) hw
  obtain ⟨q, hq⟩ : ∃ q, len + 1 + F.lengthBytes = blockBytes w * q + (len + 1 + F.lengthBytes) % blockBytes w :=
    ⟨_, (Nat.div_add_mod _ _).symm⟩
  by_cases hzero : (len + 1 + F.lengthBytes) % blockBytes w = 0
  · rw [hzero] at hq ⊢
    rw [Nat.sub_zero, Nat.mod_self, Nat.zero_add, ← Nat.add_assoc, hq, Nat.add_zero, Nat.mul_mod_right]
  · rw [Nat.mod_eq_of_lt (by omega : blockBytes w - (len + 1 + F.lengthBytes) % blockBytes w < blockBytes w)]
    have hsum : len + (1 + (blockBytes w - (len + 1 + F.lengthBytes) % blockBytes w + F.lengthBytes)) =
        blockBytes w * q + blockBytes w := by
      omega
    rw [hsum, Nat.mul_add_mod, Nat.mod_self]

theorem schedule_lt {m : Nat → BitVec w} {t : Nat} (h : t < 16) : schedule F m t = m t := by
  rw [schedule, if_pos h]

theorem schedule_ge {m : Nat → BitVec w} {t : Nat} (h : 16 ≤ t) :
    schedule F m t = smallSigma F.small1 (schedule F m (t - 2)) + schedule F m (t - 7) +
      smallSigma F.small0 (schedule F m (t - 15)) + schedule F m (t - 16) := by
  rw [schedule, if_neg (Nat.not_lt.mpr h)]

end Facts

end Sha2
