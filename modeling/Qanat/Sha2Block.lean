import Qanat.Sha2
import Qanat.General.Reads
import Mathlib.Data.Nat.ModEq

namespace Qanat

open Sha2 (Words)

section Words

theorem ror_eq {w n : Nat} (x : BitVec w) (h : n < w) : ror x n = x.rotateRight n := by
  rw [BitVec.rotateRight, Nat.mod_eq_of_lt h]
  rfl

theorem k256_eq : k256 = (List.range 64).map (Sha2.constant 32) := by
  decide +kernel

theorem k512_eq : k512 = (List.range 80).map (Sha2.constant 64) := by
  decide +kernel

theorem getD_map_range {α : Type} (f : Nat → α) {n i : Nat} (h : i < n) (d : α) :
    ((List.range n).map f).getD i d = f i := by
  rw [List.getD_eq_getElem?_getD, List.getElem?_map, List.getElem?_range h]
  rfl

/-- A byte goes behind a word. -/
theorem shift_or_byte {w : Nat} (v : BitVec w) (b : UInt8) :
    v <<< 8 ||| BitVec.ofNat w b.toNat = BitVec.ofNat w (v.toNat * 256 + b.toNat) := by
  have hdisjoint : v <<< 8 &&& BitVec.ofNat w b.toNat = 0#w := by
    refine BitVec.eq_of_getLsbD_eq fun i hi => ?_
    rw [BitVec.getLsbD_and, BitVec.getLsbD_shiftLeft, BitVec.getLsbD_ofNat, BitVec.getLsbD_zero]
    by_cases hlow : i < 8
    · simp [hlow]
    · have hbit : b.toNat.testBit i = false :=
        Nat.testBit_lt_two_pow (Nat.lt_of_lt_of_le b.toNat_lt (Nat.pow_le_pow_right (by decide) (by omega)))
      simp [hbit]
  rw [← BitVec.add_eq_or_of_and_eq_zero _ _ hdisjoint]
  refine BitVec.eq_of_toNat_eq ?_
  rw [BitVec.toNat_add, BitVec.toNat_shiftLeft, BitVec.toNat_ofNat, BitVec.toNat_ofNat, Nat.shiftLeft_eq,
    ← Nat.add_mod]

theorem foldl_bytes {w : Nat} (ps : Bytes) (v : Nat) :
    ps.foldl (fun (v : BitVec w) b => v <<< 8 ||| BitVec.ofNat w b.toNat) (BitVec.ofNat w v) =
      BitVec.ofNat w (ps.foldl (fun v b => v * 256 + b.toNat) v) := by
  induction ps generalizing v with
  | nil => rfl
  | cons b ps ih =>
    rw [List.foldl_cons, List.foldl_cons, ← ih, shift_or_byte]
    have hmod : v % 2 ^ w * 256 + b.toNat ≡ v * 256 + b.toNat [MOD 2 ^ w] :=
      ((Nat.mod_modEq v _).mul_right 256).add_right b.toNat
    have hword : BitVec.ofNat w (v % 2 ^ w * 256 + b.toNat) = BitVec.ofNat w (v * 256 + b.toNat) :=
      BitVec.eq_of_toNat_eq hmod
    rw [BitVec.toNat_ofNat, hword]

theorem ld32_eq {p : Bytes} (h : 4 ≤ p.length) : ld32 p = BitVec.ofNat 32 (Sha2.valueOf (p.take 4)) := by
  match p, h with
  | b₀ :: b₁ :: b₂ :: b₃ :: _, _ =>
    have hfold := @foldl_bytes 32 [b₀, b₁, b₂, b₃] 0
    refine Eq.trans ?_ hfold
    change BitVec.ofNat 32 b₀.toNat <<< 24 ||| BitVec.ofNat 32 b₁.toNat <<< 16 ||| BitVec.ofNat 32 b₂.toNat <<< 8 |||
      BitVec.ofNat 32 b₃.toNat =
        (((0#32 <<< 8 ||| BitVec.ofNat 32 b₀.toNat) <<< 8 ||| BitVec.ofNat 32 b₁.toNat) <<< 8 |||
          BitVec.ofNat 32 b₂.toNat) <<< 8 ||| BitVec.ofNat 32 b₃.toNat
    rw [BitVec.zero_shiftLeft, BitVec.zero_or, BitVec.shiftLeft_or_distrib, BitVec.shiftLeft_or_distrib,
      BitVec.shiftLeft_or_distrib, ← BitVec.shiftLeft_add, ← BitVec.shiftLeft_add, ← BitVec.shiftLeft_add]

theorem ld64_eq {p : Bytes} (h : 8 ≤ p.length) : ld64 p = BitVec.ofNat 64 (Sha2.valueOf (p.take 8)) := by
  match p, h with
  | b₀ :: b₁ :: b₂ :: b₃ :: b₄ :: b₅ :: b₆ :: b₇ :: _, _ =>
    exact @foldl_bytes 64 [b₀, b₁, b₂, b₃, b₄, b₅, b₆, b₇] 0

theorem toByte_shift {w : Nat} (v : BitVec w) (k : Nat) : toByte (v >>> (8 * k)) = UInt8.ofNat (v.toNat / 256 ^ k) := by
  rw [toByte, BitVec.toNat_ushiftRight, Nat.shiftRight_eq_div_pow, Nat.pow_mul]

theorem st32_eq (v : BitVec 32) : st32 v = Sha2.bytesOf 4 v.toNat := by
  have h₀ := toByte_shift v 0
  rw [Nat.mul_zero, BitVec.ushiftRight_zero] at h₀
  have h₁ : toByte (v >>> 8) = _ := toByte_shift v 1
  have h₂ : toByte (v >>> 16) = _ := toByte_shift v 2
  have h₃ : toByte (v >>> 24) = _ := toByte_shift v 3
  rw [st32, h₀, h₁, h₂, h₃]
  rfl

theorem bytes_eq (n : Nat) (v : BitVec 64) :
    (List.range n).map (fun i => toByte (v >>> (8 * (n - 1) - 8 * i))) = Sha2.bytesOf n v.toNat := by
  refine List.map_congr_left fun i _ => ?_
  rw [← Nat.mul_sub, toByte_shift]

theorem st64_eq (v : BitVec 64) : st64 v = Sha2.bytesOf 8 v.toNat :=
  bytes_eq 8 v

end Words

section Blocks

theorem word_eq (w : Nat) {b : Bytes} {t : Nat} (ht : t < 16) :
    Sha2.word w (b.take (Sha2.blockBytes w)) t = Sha2.word w b t := by
  unfold Sha2.word Sha2.blockBytes
  have hle : t * Sha2.wordBytes w + Sha2.wordBytes w ≤ 16 * Sha2.wordBytes w := by
    rw [← Nat.succ_mul]
    exact Nat.mul_le_mul_right _ ht
  rw [List.drop_take, List.take_take, Nat.min_eq_left (by omega)]

theorem sha256Extend_eq (m : Nat → BitVec 32) {i : Nat} (h : 16 ≤ i) :
    sha256Extend ((List.range i).map (Sha2.schedule Sha2.family256 m)) i =
      (List.range (i + 1)).map (Sha2.schedule Sha2.family256 m) := by
  have hx : ∀ k, 1 ≤ k → k ≤ 16 → ((List.range i).map (Sha2.schedule Sha2.family256 m)).getD (i - k) 0 =
      Sha2.schedule Sha2.family256 m (i - k) := fun k hk hk' => getD_map_range _ (by omega) _
  rw [List.range_succ, List.map_append, sha256Extend]
  dsimp only
  rw [hx 15 (by decide) (by decide), hx 2 (by decide) (by decide), hx 16 (by decide) (by decide),
    hx 7 (by decide) (by decide)]
  rw [List.map_singleton, Sha2.schedule_ge _ h, Sha2.smallSigma, Sha2.smallSigma, ror_eq _ (by decide),
    ror_eq _ (by decide), ror_eq _ (by decide), ror_eq _ (by decide)]
  dsimp only [Sha2.family256]
  congr 2
  ac_rfl

theorem sha256Extend_foldl (m : Nat → BitVec 32) (k : Nat) :
    (List.range' 16 k).foldl sha256Extend ((List.range 16).map (Sha2.schedule Sha2.family256 m)) =
      (List.range (16 + k)).map (Sha2.schedule Sha2.family256 m) := by
  induction k with
  | zero => rfl
  | succ k ih => rw [List.range'_1_concat, List.foldl_append, ih, List.foldl_cons, List.foldl_nil,
      sha256Extend_eq m (Nat.le_add_right 16 k), Nat.add_assoc]

theorem sha256Round_eq {S : Nat → BitVec 32} {t : Nat} (ht : t < 64) (v : Words 32) :
    sha256Round ((List.range 64).map S) v t = Sha2.round Sha2.family256 S v t := by
  unfold sha256Round Sha2.round Sha2.bigSigma
  rw [ror_eq _ (by decide), ror_eq _ (by decide), ror_eq _ (by decide), ror_eq _ (by decide), ror_eq _ (by decide),
    ror_eq _ (by decide), k256_eq, getD_map_range _ ht, getD_map_range _ ht]
  rfl

/-- A block of 64 bytes is compressed as the standard says. -/
theorem sha256Block_eq {h : Words 32} {b : Bytes} (hb : 64 ≤ b.length) :
    sha256Block h b = Sha2.compress Sha2.family256 h (b.take 64) := by
  have hwords : (List.range 16).map (fun i => ld32 (b.drop (4 * i))) =
      (List.range 16).map (Sha2.schedule Sha2.family256 (Sha2.word 32 (b.take 64))) := by
    refine List.map_congr_left fun i hi => ?_
    have hlt := List.mem_range.mp hi
    have hword : Sha2.word 32 (b.take 64) i = Sha2.word 32 b i := word_eq 32 hlt
    rw [Sha2.schedule_lt _ hlt, hword, ld32_eq (by rw [List.length_drop]; omega), Nat.mul_comm]
    rfl
  have hrounds : (List.range 64).foldl (sha256Round ((List.range 64).map
      (Sha2.schedule Sha2.family256 (Sha2.word 32 (b.take 64))))) h =
      (List.range 64).foldl (Sha2.round Sha2.family256
        (Sha2.schedule Sha2.family256 (Sha2.word 32 (b.take 64)))) h :=
    List.foldl_ext _ _ _ fun v t ht => sha256Round_eq (List.mem_range.mp ht) v
  unfold sha256Block Sha2.compress
  dsimp only
  rw [hwords, sha256Extend_foldl, hrounds]
  ext1 <;> exact BitVec.add_comm _ _

/-- Sixteen words hold the last sixteen words of the schedule, each at its index modulo sixteen. -/
def Rolling (S : Nat → BitVec 64) (n : Nat) (w : Nat → BitVec 64) : Prop :=
  ∀ t, t < max n 16 → max n 16 ≤ t + 16 → w (t % 16) = S t

theorem and_15 (i : Nat) : i &&& 15 = i % 16 :=
  Nat.and_two_pow_sub_one_eq_mod i 4

theorem sha512Extend_rolling {m : Nat → BitVec 64} {i : Nat} {w : Nat → BitVec 64}
    (h : Rolling (Sha2.schedule Sha2.family512 m) i w) :
    Rolling (Sha2.schedule Sha2.family512 m) (i + 1) (sha512Extend w i) := by
  unfold sha512Extend
  dsimp only
  by_cases hi : 16 ≤ i
  · rw [if_pos hi]
    have hmax : max i 16 = i := Nat.max_eq_left hi
    have hold : ∀ k, 1 ≤ k → k ≤ 16 → w ((i - k) % 16) = Sha2.schedule Sha2.family512 m (i - k) := fun k hk hk' =>
      h (i - k) (by omega) (by omega)
    intro t ht ht'
    rw [Nat.max_eq_left (by omega)] at ht ht'
    by_cases hlast : t = i
    · subst hlast
      simp only [and_15, if_true]
      rw [show t % 16 = (t - 16) % 16 by omega, show ((t - 16) % 16 + 1) % 16 = (t - 15) % 16 by omega,
        show ((t - 16) % 16 + 14) % 16 = (t - 2) % 16 by omega, show ((t - 16) % 16 + 9) % 16 = (t - 7) % 16 by omega,
        hold 16 (by decide) (by decide), hold 15 (by decide) (by decide), hold 2 (by decide) (by decide),
        hold 7 (by decide) (by decide), Sha2.schedule_ge _ hi, Sha2.smallSigma, Sha2.smallSigma, ror_eq _ (by decide),
        ror_eq _ (by decide), ror_eq _ (by decide), ror_eq _ (by decide)]
      dsimp only [Sha2.family512]
      ac_rfl
    · simp only [and_15]
      rw [if_neg (by omega)]
      exact h t (by omega) (by omega)
  · rw [if_neg hi]
    intro t ht ht'
    exact h t (by omega) (by omega)

theorem sha512Round_eq {m : Nat → BitVec 64} {i : Nat} {w : Nat → BitVec 64} (hi : i < 80)
    (h : Rolling (Sha2.schedule Sha2.family512 m) i w) (v : Words 64) :
    sha512Round (w, v) i =
      (sha512Extend w i, Sha2.round Sha2.family512 (Sha2.schedule Sha2.family512 m) v i) := by
  have hword : sha512Extend w i (i &&& 15) = Sha2.schedule Sha2.family512 m i := by
    rw [and_15]
    exact sha512Extend_rolling h i (by omega) (by omega)
  unfold sha512Round Sha2.round Sha2.bigSigma
  dsimp only
  rw [hword, ror_eq _ (by decide), ror_eq _ (by decide), ror_eq _ (by decide), ror_eq _ (by decide),
    ror_eq _ (by decide), ror_eq _ (by decide), k512_eq, getD_map_range _ hi]
  rfl

/-- The rounds with the rolling schedule are those with the whole one. -/
theorem sha512Rounds {m : Nat → BitVec 64} {w : Nat → BitVec 64} (h : Rolling (Sha2.schedule Sha2.family512 m) 0 w)
    (v : Words 64) {n : Nat} (hn : n ≤ 80) :
    Rolling (Sha2.schedule Sha2.family512 m) n ((List.range n).foldl sha512Round (w, v)).1 ∧
      ((List.range n).foldl sha512Round (w, v)).2 =
        (List.range n).foldl (Sha2.round Sha2.family512 (Sha2.schedule Sha2.family512 m)) v := by
  induction n with
  | zero => exact ⟨h, rfl⟩
  | succ n ih =>
    obtain ⟨hroll, hv⟩ := ih (by omega)
    rw [List.range_succ, List.foldl_append, List.foldl_append, ← hv]
    have hround := sha512Round_eq (by omega : n < 80) hroll ((List.range n).foldl sha512Round (w, v)).2
    rw [List.foldl_cons, List.foldl_nil, List.foldl_cons, List.foldl_nil]
    rw [show (List.range n).foldl sha512Round (w, v) = (((List.range n).foldl sha512Round (w, v)).1,
      ((List.range n).foldl sha512Round (w, v)).2) from rfl, hround]
    exact ⟨sha512Extend_rolling hroll, rfl⟩

/-- A block of 128 bytes is compressed as the standard says. -/
theorem sha512Block_eq {h : Words 64} {b : Bytes} (hb : 128 ≤ b.length) :
    sha512Block h b = Sha2.compress Sha2.family512 h (b.take 128) := by
  have hstart : Rolling (Sha2.schedule Sha2.family512 (Sha2.word 64 (b.take 128))) 0
      fun i => ld64 (b.drop (8 * i)) := by
    intro t ht _
    have hlt : t < 16 := by omega
    have hword : Sha2.word 64 (b.take 128) t = Sha2.word 64 b t := word_eq 64 hlt
    dsimp only
    rw [Nat.mod_eq_of_lt hlt, Sha2.schedule_lt _ hlt, hword, ld64_eq (by rw [List.length_drop]; omega), Nat.mul_comm]
    rfl
  have hrounds := (sha512Rounds hstart h (Nat.le_refl 80)).2
  unfold sha512Block Sha2.compress
  dsimp only
  rw [hrounds]
  ext1 <;> exact BitVec.add_comm _ _

end Blocks

end Qanat
