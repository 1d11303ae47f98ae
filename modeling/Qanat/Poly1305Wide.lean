import Qanat.Poly1305
import Mathlib.Data.Nat.ModEq

namespace Qanat

open Limbs (leValue leBytes Returns)

section Words

/-- The bytes that the loops of `ld32le` and `ld64le` read. -/
theorem foldl_le {p : Bytes} {n : Nat} (h : n ≤ p.length) :
    (List.range n).foldl (fun v i => v ||| byteAt p i <<< (8 * i)) 0 = leValue (p.take n) := by
  induction n with
  | zero => rfl
  | succ n ih =>
    obtain ⟨c, hc⟩ : ∃ c, p[n]? = some c := ⟨_, List.getElem?_eq_getElem h⟩
    have hlt := Limbs.leValue_lt (p.take n)
    rw [List.length_take_of_le (by omega), show 256 = 2 ^ 8 from rfl, ← Nat.pow_mul] at hlt
    have hbyte : byteAt p n = c.toNat := by
      rw [byteAt, List.getD_eq_getElem?_getD, hc]
      rfl
    rw [List.range_succ, List.foldl_append, ih (by omega), List.foldl_cons, List.foldl_nil, Limbs.or_shift hlt, hbyte,
      List.take_add_one, hc, Limbs.leValue_append, List.length_take_of_le (by omega), Nat.pow_mul]
    rfl

theorem ld64le_eq {p : Bytes} (h : 8 ≤ p.length) : ld64le p = leValue p % 2 ^ 64 := by
  rw [ld64le, foldl_le h, Limbs.leValue_take]
  rfl

theorem ld32le_eq {p : Bytes} (h : 4 ≤ p.length) : ld32le p = leValue p % 2 ^ 32 := by
  have hfold := foldl_le h
  rw [Limbs.leValue_take] at hfold
  refine Eq.trans ?_ hfold
  change _ = (((0 ||| byteAt p 0 <<< 0) ||| byteAt p 1 <<< 8) ||| byteAt p 2 <<< 16) ||| byteAt p 3 <<< 24
  rw [Nat.zero_or, Nat.shiftLeft_zero]
  rfl

theorem st64le_eq (v : Nat) : st64le v = leBytes 8 v := by
  refine List.map_congr_left fun i _ => ?_
  rw [Nat.shiftRight_eq_div_pow, Nat.pow_mul]

/-- Two words make a number of sixteen bytes. -/
theorem st64le_append {a : Nat} (b : Nat) (h : a < 2 ^ 64) : st64le a ++ st64le b = leBytes 16 (a + 2 ^ 64 * b) := by
  have hsplit := Limbs.leBytes_append 8 8 (a + 2 ^ 64 * b)
  rw [← Limbs.leBytes_mod 8 (a + 2 ^ 64 * b), show 256 ^ 8 = 2 ^ 64 from rfl, Nat.add_mul_mod_self_left,
    Nat.mod_eq_of_lt h, Nat.add_mul_div_left _ _ (by decide), Nat.div_eq_of_lt h, Nat.zero_add] at hsplit
  rw [st64le_eq, st64le_eq, ← hsplit]

end Words

section Split

variable {t0 t1 : Nat}

theorem and_m44 (x : Nat) : x &&& m44 = x % 2 ^ 44 :=
  Limbs.and_mask x 44

theorem and_m42 (x : Nat) : x &&& m42 = x % 2 ^ 42 :=
  Limbs.and_mask x 42

/-- The middle bits of two words. -/
theorem middle_bits (h0 : t0 < 2 ^ 64) : t0 >>> 44 ||| shl64 t1 20 = t0 / 2 ^ 44 + 2 ^ 20 * (t1 % 2 ^ 44) := by
  have hshl : shl64 t1 20 = (t1 % 2 ^ 44) <<< 20 := by
    rw [shl64, Nat.shiftLeft_eq, Nat.shiftLeft_eq]
    omega
  rw [hshl, Nat.shiftRight_eq_div_pow, Limbs.or_shift (by omega)]

theorem bits_or_top {x : Nat} (full : Bool) (h : x < 2 ^ 40) :
    (x % 2 ^ 42 ||| if full then 1 <<< 40 else 0) = x + if full then 2 ^ 40 else 0 := by
  rw [Nat.mod_eq_of_lt (by omega)]
  cases full with
  | true => exact (Limbs.or_shift h 1).trans (by rw [Nat.mul_one]; rfl)
  | false => exact Nat.or_zero x

end Split

section Wide

/-- The multiplier in limbs of 44 bits. -/
def Key44.value (k : Key44) : Nat :=
  k.r0 + 2 ^ 44 * k.r1 + 2 ^ 88 * k.r2

def Key44.pad (k : Key44) : Nat :=
  k.pad0 + 2 ^ 64 * k.pad1

def Acc44.value (h : Acc44) : Nat :=
  h.h0 + 2 ^ 44 * h.h1 + 2 ^ 88 * h.h2

structure Key44.Fits (k : Key44) : Prop where
  r0 : k.r0 < 2 ^ 44
  r1 : k.r1 < 2 ^ 44
  r2 : k.r2 < 2 ^ 36
  pad0 : k.pad0 < 2 ^ 64
  pad1 : k.pad1 < 2 ^ 64

/-- The bounds between two blocks: one limb may be a little too large. -/
structure Acc44.Fits (h : Acc44) : Prop where
  h0 : h.h0 < 2 ^ 44
  h1 : h.h1 < 2 ^ 44 + 2 ^ 10
  h2 : h.h2 < 2 ^ 42

structure Acc44.Tight (h : Acc44) : Prop where
  h0 : h.h0 < 2 ^ 44
  h1 : h.h1 < 2 ^ 44
  h2 : h.h2 < 2 ^ 42

theorem prime_eq : Poly1305.prime = 1361129467683753853853498429727072845819 :=
  rfl

/-- Multiples of the prime are dropped. -/
theorem folded {a b q : Nat} (h : a + Poly1305.prime * q = b) : a ≡ b [MOD Poly1305.prime] := by
  rw [← h]
  exact (Nat.add_mul_mod_self_left _ _ _).symm

/-- The product of two values in limbs, reduced by the prime. -/
theorem product44 (h0 h1 h2 r0 r1 r2 : Nat) :
    (h0 + 2 ^ 44 * h1 + 2 ^ 88 * h2) * (r0 + 2 ^ 44 * r1 + 2 ^ 88 * r2) =
      (h0 * r0 + h1 * (r2 * 20) + h2 * (r1 * 20)) + 2 ^ 44 * (h0 * r1 + h1 * r0 + h2 * (r2 * 20)) +
        2 ^ 88 * (h0 * r2 + h1 * r1 + h2 * r0) +
        Poly1305.prime * (4 * (h1 * r2 + h2 * r1 + 2 ^ 44 * (h2 * r2))) := by
  rw [prime_eq]
  ring

theorem polyBlock44_sound {k : Key44} {h : Acc44} {m : Bytes} (hk : k.Fits) (hh : h.Fits) (hm : 16 ≤ m.length)
    (full : Bool) : Returns (polyBlock44 k h m full) fun h' => h'.Fits ∧
      h'.value ≡ (h.value + leValue (m.take 16) + if full then 2 ^ 128 else 0) * k.value [MOD Poly1305.prime] := by
  have ht0 : ld64le m = leValue (m.take 16) % 2 ^ 64 := by
    rw [ld64le_eq (by omega), Limbs.leValue_take]
    omega
  have ht1 : ld64le (m.drop 8) = leValue (m.take 16) / 2 ^ 64 := by
    rw [ld64le_eq (by rw [List.length_drop]; omega), Limbs.leValue_take, Limbs.leValue_drop]
    omega
  have hM : leValue (m.take 16) < 2 ^ 128 := by
    rw [Limbs.leValue_take]
    exact Nat.mod_lt _ (by decide)
  generalize leValue (m.take 16) = M at *
  have hr0 := hk.r0
  have hr1 := hk.r1
  have hr2 := hk.r2
  have hh0 := hh.h0
  have hh1 := hh.h1
  have hh2 := hh.h2
  unfold polyBlock44
  dsimp only
  rw [ht0, ht1, middle_bits (by omega), and_m44, and_m44, and_m42, Nat.shiftRight_eq_div_pow,
    bits_or_top full (by omega)]
  simp only [and_m44, and_m42, Nat.shiftRight_eq_div_pow]
  obtain ⟨top, htop, htop'⟩ : ∃ top, (if full then 2 ^ 40 else 0) = top ∧ (if full then 2 ^ 128 else 0) = 2 ^ 88 * top := by
    cases full <;> exact ⟨_, rfl, rfl⟩
  have htopLe : top ≤ 2 ^ 40 := by
    rw [← htop]
    split <;> decide
  rw [htop, htop']
  refine .fit (by omega) fun s1 hs1 => .fit (by omega) fun s2 hs2 => ?_
  refine .fit (by omega) fun x0 hx0 => .fit (by omega) fun x1 hx1 => .fit (by omega) fun x2 hx2 => ?_
  have hX : x0 + 2 ^ 44 * x1 + 2 ^ 88 * x2 = h.value + M + 2 ^ 88 * top := by
    unfold Acc44.value
    omega
  have hX0 : x0 ≤ 2 ^ 45 := by omega
  have hX1 : x1 ≤ 2 ^ 46 := by omega
  have hX2 : x2 ≤ 2 ^ 43 := by omega
  have hS1 : s1 ≤ 2 ^ 49 := by omega
  have hS2 : s2 ≤ 2 ^ 41 := by omega
  have h00 : x0 * k.r0 ≤ 2 ^ 89 := (Nat.mul_le_mul hX0 hr0.le).trans (by decide)
  have h01 : x0 * k.r1 ≤ 2 ^ 89 := (Nat.mul_le_mul hX0 hr1.le).trans (by decide)
  have h02 : x0 * k.r2 ≤ 2 ^ 81 := (Nat.mul_le_mul hX0 hr2.le).trans (by decide)
  have h10 : x1 * k.r0 ≤ 2 ^ 90 := (Nat.mul_le_mul hX1 hr0.le).trans (by decide)
  have h11 : x1 * k.r1 ≤ 2 ^ 90 := (Nat.mul_le_mul hX1 hr1.le).trans (by decide)
  have h12 : x1 * s2 ≤ 2 ^ 87 := (Nat.mul_le_mul hX1 hS2).trans (by decide)
  have h20 : x2 * k.r0 ≤ 2 ^ 87 := (Nat.mul_le_mul hX2 hr0.le).trans (by decide)
  have h21 : x2 * s1 ≤ 2 ^ 92 := (Nat.mul_le_mul hX2 hS1).trans (by decide)
  have h22 : x2 * s2 ≤ 2 ^ 84 := (Nat.mul_le_mul hX2 hS2).trans (by decide)
  refine .fit (by omega) fun d0 hd0 => .fit (by omega) fun d1 hd1 => .fit (by omega) fun d2 hd2 => ?_
  have hprod := product44 x0 x1 x2 k.r0 k.r1 k.r2
  rw [hX, ← hs1, ← hs2, ← hd0, ← hd1, ← hd2] at hprod
  have hmod := folded hprod.symm
  have hD0 : d0 < 2 ^ 93 := by omega
  have hD1 : d1 < 2 ^ 93 := by omega
  have hD2 : d2 < 2 ^ 93 := by omega
  clear hprod hd0 hd1 hd2 h00 h01 h02 h10 h11 h12 h20 h21 h22 hs1 hs2 hS1 hS2 hX0 hX1 hX2 hx0 hx1 hx2 hX
  clear ht0 ht1 hM htop htop' htopLe hr0 hr1 hr2 hh0 hh1 hh2 hk hh hm
  refine .fit (by omega) fun c hc => .fit (by omega) fun y0 hy0 => ?_
  refine .fit (by omega) fun e1 he1 => .fit (by omega) fun c1 hc1 => .fit (by omega) fun y1 hy1 => ?_
  refine .fit (by omega) fun e2 he2 => .fit (by omega) fun c2 hc2 => .fit (by omega) fun y2 hy2 => ?_
  refine .fit (by omega) fun c5 hc5 => .fit (by omega) fun z0 hz0 => .fit (by omega) fun c3 hc3 => ?_
  refine .fit (by omega) fun w0 hw0 => .fit (by omega) fun w1 hw1 => .done ?_
  refine ⟨⟨?_, ?_, ?_⟩, ?_⟩
  · show w0 < 2 ^ 44
    omega
  · show w1 < 2 ^ 44 + 2 ^ 10
    omega
  · show y2 < 2 ^ 42
    omega
  · have hcarry : (Acc44.mk w0 w1 y2).value + Poly1305.prime * c2 = d0 + 2 ^ 44 * d1 + 2 ^ 88 * d2 := by
      rw [prime_eq]
      show w0 + 2 ^ 44 * w1 + 2 ^ 88 * y2 + _ = _
      omega
    exact (folded hcarry).trans hmod

theorem polySetup44_sound {key : Bytes} (hkey : 32 ≤ key.length) : (polySetup44 key).Fits ∧
    (polySetup44 key).value = Poly1305.clamp (leValue (key.take 16)) ∧
      (polySetup44 key).pad = leValue ((key.drop 16).take 16) := by
  have ht0 : ld64le key = leValue (key.take 16) % 2 ^ 64 := by
    rw [ld64le_eq (by omega), Limbs.leValue_take]
    omega
  have ht1 : ld64le (key.drop 8) = leValue (key.take 16) / 2 ^ 64 := by
    rw [ld64le_eq (by rw [List.length_drop]; omega), Limbs.leValue_take, Limbs.leValue_drop]
    omega
  have hp0 : ld64le (key.drop 16) = leValue ((key.drop 16).take 16) % 2 ^ 64 := by
    rw [ld64le_eq (by rw [List.length_drop]; omega), Limbs.leValue_take]
    omega
  have hp1 : ld64le (key.drop 24) = leValue ((key.drop 16).take 16) / 2 ^ 64 := by
    rw [ld64le_eq (by rw [List.length_drop]; omega), Limbs.leValue_take, Limbs.leValue_drop, Limbs.leValue_drop]
    omega
  have hM : leValue (key.take 16) < 2 ^ 128 := by
    rw [Limbs.leValue_take]
    exact Nat.mod_lt _ (by decide)
  have hP : leValue ((key.drop 16).take 16) < 2 ^ 128 := by
    rw [Limbs.leValue_take]
    exact Nat.mod_lt _ (by decide)
  generalize leValue (key.take 16) = M at *
  generalize leValue ((key.drop 16).take 16) = N at *
  have hr0 : M % 2 ^ 64 &&& 0xffc0fffffff = M % 2 ^ 44 &&& 0xffc0fffffff := by
    rw [Limbs.and_low 44 (M % 2 ^ 64) (by decide), Nat.mod_mod_of_dvd M (by decide)]
  have hr1 : (M % 2 ^ 64) / 2 ^ 44 + 2 ^ 20 * (M / 2 ^ 64 % 2 ^ 44) &&& 0xfffffc0ffff =
      M / 2 ^ 44 % 2 ^ 44 &&& 0xfffffc0ffff := by
    rw [Limbs.and_low 44 _ (by decide)]
    refine congrArg (· &&& 0xfffffc0ffff) ?_
    omega
  have hr2 : M / 2 ^ 64 / 2 ^ 24 = M / 2 ^ 88 := Nat.div_div_eq_div_mul M _ _
  have hclamp : Poly1305.clamp M = (M % 2 ^ 44 &&& 0xffc0fffffff) +
      2 ^ 44 * ((M / 2 ^ 44 % 2 ^ 44 &&& 0xfffffc0ffff) + 2 ^ 44 * (M / 2 ^ 88 &&& 0x00ffffffc0f)) := by
    have hsplit : M = M % 2 ^ 44 + 2 ^ 44 * (M / 2 ^ 44 % 2 ^ 44 + 2 ^ 44 * (M / 2 ^ 88)) := by omega
    rw [← Limbs.and_split 44 _ _ (by omega) (by decide), ← Limbs.and_split 44 _ _ (by omega) (by decide), ← hsplit]
    rfl
  unfold polySetup44
  dsimp only
  rw [ht0, ht1, middle_bits (by omega), Nat.shiftRight_eq_div_pow, hr0, hr1, hr2, hp0, hp1]
  have hb0 : M % 2 ^ 44 &&& 0xffc0fffffff ≤ 0xffc0fffffff := Nat.and_le_right
  have hb1 : M / 2 ^ 44 % 2 ^ 44 &&& 0xfffffc0ffff ≤ 0xfffffc0ffff := Nat.and_le_right
  have hb2 : M / 2 ^ 88 &&& 0x00ffffffc0f ≤ 0x00ffffffc0f := Nat.and_le_right
  refine ⟨⟨?_, ?_, ?_, ?_, ?_⟩, ?_, ?_⟩
  · exact Nat.lt_of_le_of_lt hb0 (by decide)
  · exact Nat.lt_of_le_of_lt hb1 (by decide)
  · exact Nat.lt_of_le_of_lt hb2 (by decide)
  · exact Nat.mod_lt N (by decide)
  · show N / 2 ^ 64 < 2 ^ 64
    omega
  · rw [hclamp]
    unfold Key44.value
    dsimp only
    omega
  · exact Nat.mod_add_div N _

theorem polyCarry44_sound {h : Acc44} (hh : h.Fits) : Returns (polyCarry44 h) fun h' => h'.Tight ∧
    h'.value ≡ h.value [MOD Poly1305.prime] := by
  obtain ⟨x0, x1, x2⟩ := h
  have hh0 : x0 < 2 ^ 44 := hh.h0
  have hh1 : x1 < 2 ^ 44 + 2 ^ 10 := hh.h1
  have hh2 : x2 < 2 ^ 42 := hh.h2
  unfold polyCarry44
  simp only [and_m44, and_m42, Nat.shiftRight_eq_div_pow]
  refine .fit (by omega) fun c hc => .fit (by omega) fun y1 hy1 => .fit (by omega) fun y2 hy2 => ?_
  refine .fit (by omega) fun d hd => .fit (by omega) fun z2 hz2 => .fit (by omega) fun z0 hz0 => ?_
  have h1 : z0 + 2 ^ 44 * y1 + 2 ^ 88 * z2 + Poly1305.prime * d = x0 + 2 ^ 44 * x1 + 2 ^ 88 * x2 := by
    rw [prime_eq]
    omega
  have hd1 : d ≤ 1 := by omega
  have hB0 : z0 < 2 ^ 44 + 5 := by omega
  have hB1 : y1 < 2 ^ 44 := by omega
  have hB2 : z2 < 2 ^ 42 := by omega
  clear hh0 hh1 hh2 hh hy1 hy2 hz2 hz0 hd hc
  refine .fit (by omega) fun e he => .fit (by omega) fun w0 hw0 => .fit (by omega) fun w1 hw1 => ?_
  refine .fit (by omega) fun f hf => .fit (by omega) fun v1 hv1 => .fit (by omega) fun v2 hv2 => ?_
  refine .fit (by omega) fun g hg => .fit (by omega) fun u2 hu2 => .fit (by omega) fun u0 hu0 => ?_
  refine .fit (by omega) fun i hi => .fit (by omega) fun s0 hs0 => .fit (by omega) fun s1 hs1 => .done ?_
  have h2 : s0 + 2 ^ 44 * s1 + 2 ^ 88 * u2 + Poly1305.prime * g = z0 + 2 ^ 44 * y1 + 2 ^ 88 * z2 := by
    rw [prime_eq]
    omega
  refine ⟨⟨?_, ?_, ?_⟩, ?_⟩
  · show s0 < 2 ^ 44
    omega
  · show s1 < 2 ^ 44
    omega
  · show u2 < 2 ^ 42
    omega
  · exact (folded h2).trans (folded h1)

theorem maskSelect_ones {w h g : Nat} (hg : g < 2 ^ w) : maskSelect w (2 ^ w - 1) h g = g := by
  rw [maskSelect, Nat.sub_self, Nat.and_zero, Nat.zero_or, Limbs.and_mask, Nat.mod_eq_of_lt hg]

theorem maskSelect_zero {w h g : Nat} (hh : h < 2 ^ w) : maskSelect w 0 h g = h := by
  rw [maskSelect, Nat.sub_zero, Nat.and_zero, Nat.or_zero, Limbs.and_mask, Nat.mod_eq_of_lt hh]

theorem polyReduce44_sound {h : Acc44} (hh : h.Tight) : Returns (polyReduce44 h) fun h' => h'.Tight ∧
    h'.value = h.value % Poly1305.prime := by
  obtain ⟨x0, x1, x2⟩ := h
  have hh0 : x0 < 2 ^ 44 := hh.h0
  have hh1 : x1 < 2 ^ 44 := hh.h1
  have hh2 : x2 < 2 ^ 42 := hh.h2
  unfold polyReduce44
  simp only [and_m44, Nat.shiftRight_eq_div_pow]
  refine .fit (by omega) fun g0 hg0 => .fit (by omega) fun c hc => .fit (by omega) fun y0 hy0 => ?_
  refine .fit (by omega) fun g1 hg1 => .fit (by omega) fun d hd => .fit (by omega) fun y1 hy1 => ?_
  refine .fit (by omega) fun g2 hg2 => .done ?_
  have hsum : y0 + 2 ^ 44 * y1 + 2 ^ 88 * g2 = x0 + 2 ^ 44 * x1 + 2 ^ 88 * x2 + 5 := by omega
  have htop : (1 : Nat) <<< 42 = 2 ^ 42 := rfl
  have hvalue : (Acc44.mk x0 x1 x2).value = x0 + 2 ^ 44 * x1 + 2 ^ 88 * x2 := rfl
  rw [htop, hvalue, prime_eq]
  by_cases hge : 2 ^ 42 ≤ g2
  · have hwrap : subWrap 64 g2 (2 ^ 42) = g2 - 2 ^ 42 := by
      unfold subWrap
      omega
    have hmask : subWrap 64 ((g2 - 2 ^ 42) / 2 ^ 63) 1 = 2 ^ 64 - 1 := by
      unfold subWrap
      omega
    rw [hwrap, hmask, maskSelect_ones (by omega), maskSelect_ones (by omega), maskSelect_ones (by omega)]
    refine ⟨⟨?_, ?_, ?_⟩, ?_⟩
    · show y0 < 2 ^ 44
      omega
    · show y1 < 2 ^ 44
      omega
    · show g2 - 2 ^ 42 < 2 ^ 42
      omega
    · show y0 + 2 ^ 44 * y1 + 2 ^ 88 * (g2 - 2 ^ 42) = _
      omega
  · have hmask : subWrap 64 (subWrap 64 g2 (2 ^ 42) / 2 ^ 63) 1 = 0 := by
      unfold subWrap
      omega
    rw [hmask, maskSelect_zero (by omega), maskSelect_zero (by omega), maskSelect_zero (by omega)]
    refine ⟨⟨hh0, hh1, hh2⟩, ?_⟩
    show x0 + 2 ^ 44 * x1 + 2 ^ 88 * x2 = _
    omega

theorem polyPad44_sound {k : Key44} {h : Acc44} (hk : k.Fits) (hh : h.Tight) :
    polyPad44 k h = some (leBytes 16 ((h.value + k.pad) % 2 ^ 128)) := by
  obtain ⟨x0, x1, x2⟩ := h
  obtain ⟨r0, r1, r2, t0, t1⟩ := k
  have hh0 : x0 < 2 ^ 44 := hh.h0
  have hh1 : x1 < 2 ^ 44 := hh.h1
  have hh2 : x2 < 2 ^ 42 := hh.h2
  have ht0 : t0 < 2 ^ 64 := hk.pad0
  have ht1 : t1 < 2 ^ 64 := hk.pad1
  suffices hpad : Returns (polyPad44 ⟨r0, r1, r2, t0, t1⟩ ⟨x0, x1, x2⟩) fun out =>
      out = leBytes 16 ((x0 + 2 ^ 44 * x1 + 2 ^ 88 * x2 + (t0 + 2 ^ 64 * t1)) % 2 ^ 128) by
    obtain ⟨out, hout, rfl⟩ := hpad
    exact hout
  have hsplit : t0 % 2 ^ 44 + 2 ^ 44 * ((t0 / 2 ^ 44 + 2 ^ 20 * (t1 % 2 ^ 44)) % 2 ^ 44) +
      2 ^ 88 * (t1 / 2 ^ 24 % 2 ^ 42) = t0 + 2 ^ 64 * t1 := by omega
  unfold polyPad44
  dsimp only
  rw [middle_bits ht0, ← hsplit]
  simp only [and_m44, and_m42, Nat.shiftRight_eq_div_pow]
  have hp0 : t0 % 2 ^ 44 < 2 ^ 44 := Nat.mod_lt _ (by decide)
  have hp1 : (t0 / 2 ^ 44 + 2 ^ 20 * (t1 % 2 ^ 44)) % 2 ^ 44 < 2 ^ 44 := Nat.mod_lt _ (by decide)
  have hp2 : t1 / 2 ^ 24 % 2 ^ 42 < 2 ^ 42 := Nat.mod_lt _ (by decide)
  clear hsplit ht0 ht1 hk
  generalize t0 % 2 ^ 44 = p0 at *
  generalize (t0 / 2 ^ 44 + 2 ^ 20 * (t1 % 2 ^ 44)) % 2 ^ 44 = p1 at *
  generalize t1 / 2 ^ 24 % 2 ^ 42 = p2 at *
  refine .fit (by omega) fun y0 hy0 => .fit (by omega) fun c hc => .fit (by omega) fun z0 hz0 => ?_
  refine .fit (by omega) fun y1 hy1 => .fit (by omega) fun d hd => .fit (by omega) fun z1 hz1 => ?_
  refine .fit (by omega) fun y2 hy2 => .fit (by omega) fun z2 hz2 => .done ?_
  have hsum : x0 + 2 ^ 44 * x1 + 2 ^ 88 * x2 + (p0 + 2 ^ 44 * p1 + 2 ^ 88 * p2) =
      z0 + 2 ^ 44 * z1 + 2 ^ 88 * y2 := by omega
  have hz0' : z0 < 2 ^ 44 := by omega
  have hz1' : z1 < 2 ^ 44 := by omega
  rw [hsum]
  clear hsum hy0 hy1 hc hd hz0 hz1 hh0 hh1 hh2 hp0 hp1 hp2 hh
  have hlow : z0 ||| shl64 z1 44 = z0 + 2 ^ 44 * (z1 % 2 ^ 20) := by
    have hshl : shl64 z1 44 = (z1 % 2 ^ 20) <<< 44 := by
      rw [shl64, Nat.shiftLeft_eq, Nat.shiftLeft_eq]
      omega
    rw [hshl, Limbs.or_shift hz0']
  have hhigh : z1 / 2 ^ 20 ||| shl64 z2 24 = z1 / 2 ^ 20 + 2 ^ 24 * (z2 % 2 ^ 40) := by
    have hshl : shl64 z2 24 = (z2 % 2 ^ 40) <<< 24 := by
      rw [shl64, Nat.shiftLeft_eq, Nat.shiftLeft_eq]
      omega
    rw [hshl, Limbs.or_shift (by omega)]
  rw [hlow, hhigh, st64le_append _ (by omega)]
  refine congrArg (leBytes 16) ?_
  omega

theorem polyDone44_sound {k : Key44} {h : Acc44} (hk : k.Fits) (hh : h.Fits) :
    polyDone44 k h = some (leBytes 16 ((h.value % Poly1305.prime + k.pad) % 2 ^ 128)) := by
  obtain ⟨h₁, hrun₁, htight₁, hmod⟩ := polyCarry44_sound hh
  obtain ⟨h₂, hrun₂, htight₂, hvalue⟩ := polyReduce44_sound htight₁
  have hpad := polyPad44_sound hk htight₂
  have hmod' : h₁.value % Poly1305.prime = h.value % Poly1305.prime := hmod
  rw [hvalue, hmod'] at hpad
  rw [polyDone44, hrun₁, Option.bind_eq_bind, Option.bind_some, hrun₂, Option.bind_some, hpad]

end Wide

end Qanat
