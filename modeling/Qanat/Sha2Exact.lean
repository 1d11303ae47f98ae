import Qanat.Sha2Block

namespace Qanat

open Sha2 (Words)
open Splice (splice)
open BlockStream (Holds run)

section Close

/-- The end of both hash functions: the mark, zeros up to the last block's `room`, and the length. -/
def closeBlock {σ : Type} (f : σ → Bytes → σ) (n room : Nat) (tail : Bytes) (h : σ) (buf : Bytes) (cnt : Nat) : σ :=
  let buf := splice buf cnt [0x80]
  let cnt := cnt + 1
  if room < cnt then
    let buf := splice buf cnt (List.replicate (n - cnt) 0)
    f (f h buf) (splice (splice buf 0 (List.replicate (room - 0) 0)) room tail)
  else f h (splice (splice buf cnt (List.replicate (room - cnt) 0)) room tail)

/-- How many zeros are written. -/
def closeZeros (n room cnt : Nat) : Nat :=
  if room < cnt + 1 then n - (cnt + 1) + room else room - (cnt + 1)

variable {σ : Type} {f : σ → Bytes → σ} {n room cnt : Nat} {tail buf m : Bytes} {iv h : σ}

/-- Zeros and the length behind the first `cnt` bytes make the last block. -/
theorem last_block (hbuf : buf.length = n) (hcnt : cnt ≤ room) (htail : room + tail.length = n) :
    splice (splice buf cnt (List.replicate (room - cnt) 0)) room tail =
      buf.take cnt ++ (List.replicate (room - cnt) 0 ++ tail) := by
  have hzeros : cnt + (List.replicate (room - cnt) (0 : UInt8)).length = room := by
    rw [List.length_replicate]
    omega
  have hinner : (splice buf cnt (List.replicate (room - cnt) 0)).length = n := by
    rw [Splice.length_splice (by omega), hbuf]
  rw [BlockStream.splice_end (by omega)]
  have htake := @BlockStream.take_splice _ (List.replicate (room - cnt) 0) buf cnt (by omega)
  rw [hzeros] at htake
  rw [htake, List.append_assoc]

/-- The end takes the padded rest of the text. -/
theorem closeBlock_eq (hh : Holds f n iv m h buf cnt) (htail : room + tail.length = n) :
    run f n iv (m ++ 0x80 :: (List.replicate (closeZeros n room cnt) 0 ++ tail)) =
      (closeBlock f n room tail h buf cnt, []) := by
  have hbuf := hh.room
  have hcnt := hh.count
  have hn := Nat.zero_lt_of_lt hcnt
  have hmark : (splice buf cnt [0x80]).length = n := by
    rw [Splice.length_splice (by rw [List.length_singleton]; omega), hbuf]
  have htake : (splice buf cnt [0x80]).take (cnt + 1) = buf.take cnt ++ [0x80] :=
    @BlockStream.take_splice _ [0x80] buf cnt (by omega)
  rw [hh.append]
  unfold closeBlock closeZeros
  dsimp only
  by_cases hroom : room < cnt + 1
  · rw [if_pos hroom, if_pos hroom]
    have hfirst : splice (splice buf cnt [0x80]) (cnt + 1) (List.replicate (n - (cnt + 1)) 0) =
        buf.take cnt ++ 0x80 :: List.replicate (n - (cnt + 1)) 0 := by
      rw [BlockStream.splice_end (by rw [List.length_replicate]; omega), htake, List.append_assoc]
      rfl
    have hfirstLen : (buf.take cnt ++ 0x80 :: List.replicate (n - (cnt + 1)) (0 : UInt8)).length = n := by
      rw [List.length_append, List.length_take_of_le (by omega), List.length_cons, List.length_replicate]
      omega
    rw [hfirst, last_block hfirstLen (Nat.zero_le _) htail, List.replicate_add, List.take_zero]
    have hsplit : buf.take cnt ++ 0x80 :: (List.replicate (n - (cnt + 1)) 0 ++ List.replicate room 0 ++ tail) =
        buf.take cnt ++ 0x80 :: List.replicate (n - (cnt + 1)) 0 ++ ([] ++ (List.replicate (room - 0) 0 ++ tail)) := by
      simp only [List.append_assoc, List.cons_append, List.nil_append, Nat.sub_zero]
    rw [hsplit, BlockStream.run_block hn hfirstLen, BlockStream.run_last hn]
    simp only [List.nil_append, List.length_append, List.length_replicate]
    omega
  · rw [if_neg hroom, if_neg hroom, last_block hmark (by omega) htail, htake, List.append_assoc]
    rw [show [0x80] ++ (List.replicate (room - (cnt + 1)) 0 ++ tail) =
      0x80 :: (List.replicate (room - (cnt + 1)) 0 ++ tail) from rfl]
    refine BlockStream.run_last hn ?_
    simp only [List.length_append, List.length_cons, List.length_replicate]
    rw [List.length_take_of_le (by omega)]
    omega

end Close

section Sha256

theorem sha256Block_whole {h : Words 32} {b : Bytes} (hb : b.length = 64) :
    sha256Block h b = Sha2.compress Sha2.family256 h b := by
  rw [sha256Block_eq hb.ge, List.take_of_length_le hb.le]

theorem sha256Blocks_eq {h : Words 32} {p : Bytes} {k : Nat} (hk : k * 64 ≤ p.length) :
    sha256Blocks h p k = BlockStream.blocks (Sha2.compress Sha2.family256) 64 k h p := by
  induction k generalizing h p with
  | zero => rfl
  | succ k ih =>
    rw [sha256Blocks, BlockStream.blocks, sha256Block_eq (by omega), ih (by rw [List.length_drop]; omega)]

/-- A state that has taken in a message. -/
structure Sha256.Took (s : Sha256) (m : Bytes) : Prop where
  holds : Holds (Sha2.compress Sha2.family256) 64 (Sha2.rootWords 32 0) m s.h s.buf s.n
  len : s.len = BitVec.ofNat 64 m.length

theorem sha256Init_took {buf : Bytes} (hbuf : buf.length = 64) : (sha256Init buf).Took [] := by
  have hiv : (sha256Init buf).h = Sha2.rootWords 32 0 := by
    change Words.mk _ _ _ _ _ _ _ _ = _
    decide +kernel
  refine ⟨?_, rfl⟩
  rw [hiv]
  exact .start (by decide) hbuf

theorem sha256Whole_holds {s : Sha256} {m : Bytes} (hn : s.n = 0)
    (hh : Holds (Sha2.compress Sha2.family256) 64 (Sha2.rootWords 32 0) m s.h s.buf s.n) (d : Bytes) :
    Holds (Sha2.compress Sha2.family256) 64 (Sha2.rootWords 32 0) (m ++ d) (sha256Whole s d).h (sha256Whole s d).buf
        (sha256Whole s d).n ∧ (sha256Whole s d).len = s.len := by
  have hbuf := hh.room
  have hrun : run (Sha2.compress Sha2.family256) 64 (Sha2.rootWords 32 0) (m ++ d) =
      (BlockStream.blocks (Sha2.compress Sha2.family256) 64 (d.length / 64) s.h d, d.drop (d.length / 64 * 64)) := by
    rw [hh.append, hn, List.take_zero, List.nil_append]
    exact BlockStream.run_whole (by decide)
  have hrest : (d.drop (d.length / 64 * 64)).length < 64 := by
    rw [List.length_drop]
    omega
  have hh₁ : (if 64 ≤ d.length then { s with h := sha256Blocks s.h d (d.length / 64) } else s) =
      { s with h := BlockStream.blocks (Sha2.compress Sha2.family256) 64 (d.length / 64) s.h d } := by
    split
    next => rw [sha256Blocks_eq (Nat.div_mul_le_self _ _)]
    next hlt => rw [Nat.div_eq_of_lt (Nat.not_le.mp hlt), BlockStream.blocks]
  have hd₁ : (if 64 ≤ d.length then d.drop (d.length / 64 * 64) else d) = d.drop (d.length / 64 * 64) := by
    split
    next => rfl
    next hlt => rw [Nat.div_eq_of_lt (Nat.not_le.mp hlt), Nat.zero_mul, List.drop_zero]
  unfold sha256Whole
  dsimp only
  rw [hh₁, hd₁]
  generalize d.drop (d.length / 64 * 64) = rest at hrun hrest
  by_cases hnil : rest.length ≠ 0
  · rw [if_pos hnil]
    refine ⟨⟨?_, hrest, ?_⟩, rfl⟩
    · exact (Splice.length_splice (show 0 + rest.length ≤ s.buf.length by omega)).trans hbuf
    · have htake := @BlockStream.take_splice _ rest s.buf 0 (Nat.zero_le _)
      rw [Nat.zero_add, List.take_zero, List.nil_append] at htake
      rw [hrun, htake]
  · rw [if_neg hnil]
    refine ⟨⟨hbuf, hh.count, ?_⟩, rfl⟩
    dsimp only
    rw [hrun, hn, List.take_zero, List.length_eq_zero_iff.mp (not_not.mp hnil)]

theorem ofNat_length (m d : Bytes) :
    BitVec.ofNat 64 m.length + BitVec.ofNat 64 d.length = BitVec.ofNat 64 (m ++ d).length := by
  rw [List.length_append, BitVec.ofNat_add]

theorem sha256Update_took {s : Sha256} {m : Bytes} (hs : s.Took m) (d : Bytes) : (sha256Update s d).Took (m ++ d) := by
  have hbuf := hs.holds.room
  have hcnt := hs.holds.count
  have hlen : s.len + BitVec.ofNat 64 d.length = BitVec.ofNat 64 (m ++ d).length := by
    rw [hs.len, ofNat_length]
  unfold sha256Update
  dsimp only
  by_cases hn : s.n ≠ 0
  · rw [if_pos hn]
    by_cases hshort : s.n + min (64 - s.n) d.length < 64
    · rw [if_pos hshort]
      have hmin : min (64 - s.n) d.length = d.length := by omega
      rw [hmin, List.take_length]
      exact ⟨hs.holds.fill (by omega), hlen⟩
    · rw [if_neg hshort]
      have htake : (d.take (min (64 - s.n) d.length)).length = min (64 - s.n) d.length :=
        List.length_take_of_le (Nat.min_le_right _ _)
      have hfull : Holds _ 64 _ (m ++ d.take (min (64 - s.n) d.length)) _ _ 0 :=
        hs.holds.complete (by rw [htake]; omega)
      rw [← sha256Block_whole hfull.room] at hfull
      obtain ⟨hwhole, hsame⟩ := @sha256Whole_holds
        ⟨sha256Block s.h (splice s.buf s.n (d.take (min (64 - s.n) d.length))), s.len + BitVec.ofNat 64 d.length,
          splice s.buf s.n (d.take (min (64 - s.n) d.length)), 0⟩ _ rfl hfull (d.drop (min (64 - s.n) d.length))
      rw [List.append_assoc, List.take_append_drop] at hwhole
      exact ⟨hwhole, hsame.trans hlen⟩
  · rw [if_neg hn]
    obtain ⟨hwhole, hsame⟩ := @sha256Whole_holds ⟨s.h, s.len + BitVec.ofNat 64 d.length, s.buf, s.n⟩ m
      (not_not.mp hn) hs.holds d
    exact ⟨hwhole, hsame.trans hlen⟩

theorem sha256Final_eq (s : Sha256) : sha256Final s =
    (closeBlock sha256Block 64 56 ((List.range 8).map fun i => toByte ((s.len <<< 3) >>> (56 - 8 * i))) s.h s.buf
      s.n).toList.flatMap st32 := by
  unfold sha256Final closeBlock
  dsimp only
  by_cases h : 56 < s.n + 1
  · rw [if_pos h, if_pos h]
  · rw [if_neg h, if_neg h]

theorem toList_flatMap_st32 (v : Words 32) :
    v.toList.flatMap st32 = (v.toList.take 8).flatMap fun x => Sha2.bytesOf 4 x.toNat := by
  rw [List.take_of_length_le (Nat.le_refl 8), funext st32_eq]

theorem shifted_length {len : Nat} (h : len < 2 ^ 61) : (BitVec.ofNat 64 len <<< 3).toNat = 8 * len := by
  rw [BitVec.toNat_shiftLeft, BitVec.toNat_ofNat, Nat.shiftLeft_eq]
  omega

theorem closeBlock_congr {σ : Type} {f g : σ → Bytes → σ} {n room cnt : Nat} {tail buf : Bytes} {h : σ}
    (hfg : ∀ h (b : Bytes), b.length = n → f h b = g h b) (hbuf : buf.length = n) (hcnt : cnt < n)
    (htail : room + tail.length = n) : closeBlock f n room tail h buf cnt = closeBlock g n room tail h buf cnt := by
  have hmark : (splice buf cnt [0x80]).length = n := by
    rw [Splice.length_splice (by rw [List.length_singleton]; omega), hbuf]
  unfold closeBlock
  dsimp only
  split
  next hroom =>
    have hfirst : (splice (splice buf cnt [0x80]) (cnt + 1) (List.replicate (n - (cnt + 1)) 0)).length = n := by
      rw [Splice.length_splice (by rw [List.length_replicate]; omega), hmark]
    have hzeros : (splice (splice (splice buf cnt [0x80]) (cnt + 1) (List.replicate (n - (cnt + 1)) 0)) 0
        (List.replicate (room - 0) 0)).length = n := by
      rw [Splice.length_splice (by rw [List.length_replicate]; omega), hfirst]
    rw [hfg _ _ hfirst, hfg _ _ (by rw [Splice.length_splice (by omega), hzeros])]
  next hroom =>
    have hzeros : (splice (splice buf cnt [0x80]) (cnt + 1) (List.replicate (room - (cnt + 1)) 0)).length = n := by
      rw [Splice.length_splice (by rw [List.length_replicate]; omega), hmark]
    rw [hfg _ _ (by rw [Splice.length_splice (by omega), hzeros])]

/-- The end of the code gives the hash value of the standard. -/
theorem sha256Final_exact {s : Sha256} {m : Bytes} (hs : s.Took m) (hm : m.length < 2 ^ 61) :
    sha256Final s = Sha2.sha256 m := by
  have hcnt := hs.holds.count_eq
  have htail : ((List.range 8).map fun i => toByte ((s.len <<< 3) >>> (56 - 8 * i))) =
      Sha2.bytesOf 8 (8 * m.length) := by
    rw [← shifted_length hm, ← hs.len]
    exact bytes_eq 8 _
  have hzeros : closeZeros 64 56 s.n = Sha2.padZeros Sha2.family256 m.length := by
    change _ = (64 - (m.length + 1 + 8) % 64) % 64
    unfold closeZeros
    split <;> omega
  have hclose := @closeBlock_eq _ (Sha2.compress Sha2.family256) 64 56 s.n (Sha2.bytesOf 8 (8 * m.length)) s.buf m
    (Sha2.rootWords 32 0) s.h hs.holds rfl
  rw [hzeros] at hclose
  rw [sha256Final_eq, toList_flatMap_st32, htail, closeBlock_congr (fun _ _ => sha256Block_whole) hs.holds.room
    hs.holds.count rfl]
  unfold Sha2.sha256 Sha2.digest Sha2.padding
  rw [show Sha2.blockBytes 32 = 64 from rfl, show Sha2.family256.lengthBytes = 8 from rfl, hclose]
  rfl

end Sha256

section Sha512

theorem sha512Block_whole {h : Words 64} {b : Bytes} (hb : b.length = 128) :
    sha512Block h b = Sha2.compress Sha2.family512 h b := by
  rw [sha512Block_eq hb.ge, List.take_of_length_le hb.le]

/-- A state of SHA-384 that has taken in a message. -/
structure Sha512.Took (s : Sha512) (m : Bytes) : Prop where
  holds : Holds (Sha2.compress Sha2.family512) 128 (Sha2.rootWords 64 8) m s.h s.buf s.n
  lo : s.lenLo = BitVec.ofNat 64 m.length
  hi : m.length < 2 ^ 61 → s.lenHi = 0
  outlen : s.outlen = 48

theorem sha512Init_took {buf : Bytes} (hbuf : buf.length = 128) : (sha512Init 48 buf).Took [] := by
  have hiv : (sha512Init 48 buf).h = Sha2.rootWords 64 8 := by
    change Words.mk _ _ _ _ _ _ _ _ = _
    decide +kernel
  refine ⟨?_, rfl, fun _ => rfl, rfl⟩
  rw [hiv]
  exact .start (by decide) hbuf

theorem sha512Take_holds {fuel : Nat} {s : Sha512} {m d : Bytes} (hfuel : d.length < fuel)
    (hh : Holds (Sha2.compress Sha2.family512) 128 (Sha2.rootWords 64 8) m s.h s.buf s.n) :
    Holds (Sha2.compress Sha2.family512) 128 (Sha2.rootWords 64 8) (m ++ d) (sha512Take fuel s d).h
        (sha512Take fuel s d).buf (sha512Take fuel s d).n ∧
      (sha512Take fuel s d).lenLo = s.lenLo ∧ (sha512Take fuel s d).lenHi = s.lenHi ∧
        (sha512Take fuel s d).outlen = s.outlen := by
  induction fuel generalizing s m d with
  | zero => exact absurd hfuel (Nat.not_lt_zero _)
  | succ fuel ih =>
    rw [sha512Take]
    by_cases hnil : d.length ≠ 0
    · rw [if_pos hnil]
      dsimp only
      have hcnt := hh.count
      have htake : (d.take (min (128 - s.n) d.length)).length = min (128 - s.n) d.length :=
        List.length_take_of_le (Nat.min_le_right _ _)
      have hrest : (d.drop (min (128 - s.n) d.length)).length < fuel := by
        rw [List.length_drop]
        omega
      have happend : m ++ d = m ++ d.take (min (128 - s.n) d.length) ++ d.drop (min (128 - s.n) d.length) := by
        rw [List.append_assoc, List.take_append_drop]
      rw [happend]
      by_cases hfull : s.n + min (128 - s.n) d.length = 128
      · rw [if_pos hfull]
        have hnext : Holds _ 128 _ (m ++ d.take (min (128 - s.n) d.length)) _ _ 0 :=
          hh.complete (by rw [htake]; exact hfull)
        rw [← sha512Block_whole hnext.room] at hnext
        exact @ih ⟨sha512Block s.h (splice s.buf s.n (d.take (min (128 - s.n) d.length))), s.lenLo, s.lenHi,
          splice s.buf s.n (d.take (min (128 - s.n) d.length)), 0, s.outlen⟩ _ _ hrest hnext
      · rw [if_neg hfull]
        have hnext : Holds _ 128 _ (m ++ d.take (min (128 - s.n) d.length)) _ _ _ :=
          hh.fill (by rw [htake]; omega)
        rw [htake] at hnext
        exact @ih ⟨s.h, s.lenLo, s.lenHi, splice s.buf s.n (d.take (min (128 - s.n) d.length)),
          s.n + min (128 - s.n) d.length, s.outlen⟩ _ _ hrest hnext
    · rw [if_neg hnil, List.length_eq_zero_iff.mp (not_not.mp hnil), List.append_nil]
      exact ⟨hh, rfl, rfl, rfl⟩

theorem sha512Update_took {s : Sha512} {m : Bytes} (hs : s.Took m) (d : Bytes) : (sha512Update s d).Took (m ++ d) := by
  have hlo : s.lenLo + BitVec.ofNat 64 d.length = BitVec.ofNat 64 (m ++ d).length := by
    rw [hs.lo, ofNat_length]
  unfold sha512Update
  dsimp only
  obtain ⟨hh, hl, hhi, hout⟩ := @sha512Take_holds (d.length + 1)
    { s with
      lenLo := s.lenLo + BitVec.ofNat 64 d.length
      lenHi := if s.lenLo + BitVec.ofNat 64 d.length < s.lenLo then s.lenHi + 1 else s.lenHi } m d
    (Nat.lt_succ_self _) hs.holds
  refine ⟨hh, hl.trans hlo, fun hm => hhi.trans ?_, hout.trans hs.outlen⟩
  rw [List.length_append] at hm
  have hcarry : ¬s.lenLo + BitVec.ofNat 64 d.length < s.lenLo := by
    rw [hlo, hs.lo, BitVec.lt_def, BitVec.toNat_ofNat, BitVec.toNat_ofNat, List.length_append]
    omega
  rw [if_neg hcarry]
  exact hs.hi (by omega)

theorem sha512Final_eq (s : Sha512) : sha512Final s =
    ((closeBlock sha512Block 128 112 (st64 (s.lenHi <<< 3 ||| s.lenLo >>> 61) ++ st64 (s.lenLo <<< 3)) s.h s.buf
      s.n).toList.take (s.outlen / 8)).flatMap st64 := by
  unfold sha512Final closeBlock
  dsimp only
  by_cases h : 112 < s.n + 1
  · rw [if_pos h, if_pos h]
  · rw [if_neg h, if_neg h]

/-- A number in sixteen bytes is its high half and its low half. -/
theorem bytesOf_16 {v : Nat} (h : v < 2 ^ 64) : Sha2.bytesOf 8 0 ++ Sha2.bytesOf 8 v = Sha2.bytesOf 16 v := by
  have hhigh : ∀ k, 8 ≤ k → v / 256 ^ k = 0 := fun k hk => by
    refine Nat.div_eq_of_lt (Nat.lt_of_lt_of_le h ?_)
    calc 2 ^ 64 = 256 ^ 8 := by decide
      _ ≤ 256 ^ k := Nat.pow_le_pow_right (by decide) hk
  have hsplit : List.range 16 = List.range 8 ++ (List.range 8).map (8 + ·) := rfl
  unfold Sha2.bytesOf
  rw [hsplit, List.map_append, List.map_map]
  refine congrArg (· ++ _) (List.map_congr_left fun i hi => ?_)
  have hlt := List.mem_range.mp hi
  rw [hhigh (16 - 1 - i) (by omega), Nat.zero_div]

theorem sha512Final_exact {s : Sha512} {m : Bytes} (hs : s.Took m) (hm : m.length < 2 ^ 61) :
    sha512Final s = Sha2.sha384 m := by
  have hcnt := hs.holds.count_eq
  have hhigh : s.lenHi <<< 3 ||| s.lenLo >>> 61 = 0#64 := by
    refine BitVec.eq_of_toNat_eq ?_
    rw [hs.hi hm, hs.lo, BitVec.toNat_or, BitVec.toNat_ushiftRight, BitVec.toNat_ofNat, Nat.shiftRight_eq_div_pow,
      Nat.mod_eq_of_lt (by omega), Nat.div_eq_of_lt hm]
    rfl
  have htail : st64 (s.lenHi <<< 3 ||| s.lenLo >>> 61) ++ st64 (s.lenLo <<< 3) = Sha2.bytesOf 16 (8 * m.length) := by
    rw [hhigh, st64_eq, st64_eq, hs.lo, shifted_length hm]
    exact bytesOf_16 (by omega)
  have hzeros : closeZeros 128 112 s.n = Sha2.padZeros Sha2.family512 m.length := by
    change _ = (128 - (m.length + 1 + 16) % 128) % 128
    unfold closeZeros
    split <;> omega
  have hclose := @closeBlock_eq _ (Sha2.compress Sha2.family512) 128 112 s.n (Sha2.bytesOf 16 (8 * m.length)) s.buf m
    (Sha2.rootWords 64 8) s.h hs.holds rfl
  rw [hzeros] at hclose
  rw [sha512Final_eq, htail, closeBlock_congr (fun _ _ => sha512Block_whole) hs.holds.room hs.holds.count rfl,
    hs.outlen, funext st64_eq]
  unfold Sha2.sha384 Sha2.digest Sha2.padding
  rw [show Sha2.blockBytes 64 = 128 from rfl, show Sha2.family512.lengthBytes = 16 from rfl, hclose]
  rfl

end Sha512

section Runs

/-- The hash value of the bytes that a running hash has taken in. -/
def TlsHash.digest (h : TlsHash) : Bytes :=
  match h.id with
  | .sha256 => Sha2.sha256 h.data
  | .sha384 => Sha2.sha384 h.data

/-- `qn_hash_block`. -/
def hashBlock : HashId → Nat
  | .sha256 => 64
  | .sha384 => 128

/-- A call of `qn_hash_update` or `qn_hash_final`. -/
inductive HashOp
  | update (d : Bytes)
  | final

def HashOp.length : HashOp → Nat
  | update d => d.length
  | final => 0

/-- What the calls of `qn_hash_final` give in a run; the state goes on behind each of them. -/
def hashRun : QnHash → List HashOp → List Bytes
  | _, [] => []
  | h, .update d :: ops => hashRun (qnHashUpdate h d) ops
  | h, .final :: ops => qnHashFinal h :: hashRun h ops

/-- The same run over all bytes so far. -/
def digestRun : TlsHash → List HashOp → List Bytes
  | _, [] => []
  | h, .update d :: ops => digestRun (h.update d) ops
  | h, .final :: ops => h.digest :: digestRun h ops

/-- A state of the code that stands for a running hash. -/
def QnHash.Took : QnHash → TlsHash → Prop
  | .s256 s, h => h.id = .sha256 ∧ s.Took h.data
  | .s384 s, h => h.id = .sha384 ∧ s.Took h.data

theorem qnHashInit_took (id : HashId) {buf : Bytes} (hbuf : buf.length = hashBlock id) :
    (qnHashInit id buf).Took (hashInit id) := by
  cases id with
  | sha256 => exact ⟨rfl, sha256Init_took hbuf⟩
  | sha384 => exact ⟨rfl, sha512Init_took hbuf⟩

theorem qnHashUpdate_took {s : QnHash} {h : TlsHash} (hs : s.Took h) (d : Bytes) :
    (qnHashUpdate s d).Took (h.update d) := by
  cases s with
  | s256 s => exact ⟨hs.1, sha256Update_took hs.2 d⟩
  | s384 s => exact ⟨hs.1, sha512Update_took hs.2 d⟩

theorem qnHashFinal_digest {s : QnHash} {h : TlsHash} (hs : s.Took h) (hlen : h.data.length < 2 ^ 61) :
    qnHashFinal s = h.digest := by
  cases s with
  | s256 s =>
    rw [TlsHash.digest, hs.1]
    exact sha256Final_exact hs.2 hlen
  | s384 s =>
    rw [TlsHash.digest, hs.1]
    exact sha512Final_exact hs.2 hlen

theorem hashRun_digests {ops : List HashOp} {s : QnHash} {h : TlsHash} (hs : s.Took h)
    (hlen : h.data.length + (ops.map HashOp.length).sum < 2 ^ 61) : hashRun s ops = digestRun h ops := by
  induction ops generalizing s h with
  | nil => rfl
  | cons op ops ih =>
    rw [List.map_cons, List.sum_cons] at hlen
    cases op with
    | update d =>
      refine ih (qnHashUpdate_took hs d) ?_
      change (h.data ++ d).length + _ < _
      rw [List.length_append, Nat.add_assoc]
      exact hlen
    | final => rw [hashRun, digestRun, qnHashFinal_digest hs (by omega), ih hs (by simpa [HashOp.length] using hlen)]

/-- Every hash value of a run of updates and finals is that of all bytes so far. -/
theorem hash_incremental (id : HashId) (buf : Bytes) (ops : List HashOp) (hbuf : buf.length = hashBlock id)
    (hlen : (ops.map HashOp.length).sum < 2 ^ 61) :
    hashRun (qnHashInit id buf) ops = digestRun (hashInit id) ops :=
  hashRun_digests (qnHashInit_took id hbuf) (by rwa [hashInit, List.length_nil, Nat.zero_add])

theorem hash_incremental_abc :
    hashRun (qnHashInit .sha384 (List.replicate 128 7))
        [.update [0x61], .final, .update [], .update [0x62, 0x63], .final] =
      digestRun (hashInit .sha384) [.update [0x61], .final, .update [], .update [0x62, 0x63], .final] :=
  hash_incremental .sha384 (List.replicate 128 7) [.update [0x61], .final, .update [], .update [0x62, 0x63], .final] rfl
    (by decide)

end Runs

end Qanat
