import Qanat.Poly1305Wide

namespace Qanat

open Limbs (leValue leBytes Returns)

section Narrow

/-- The multiplier in limbs of 26 bits. -/
def Key26.value (k : Key26) : Nat :=
  k.r0 + 2 ^ 26 * k.r1 + 2 ^ 52 * k.r2 + 2 ^ 78 * k.r3 + 2 ^ 104 * k.r4

def Key26.pad (k : Key26) : Nat :=
  k.pad0 + 2 ^ 32 * k.pad1 + 2 ^ 64 * k.pad2 + 2 ^ 96 * k.pad3

def Acc26.value (h : Acc26) : Nat :=
  h.h0 + 2 ^ 26 * h.h1 + 2 ^ 52 * h.h2 + 2 ^ 78 * h.h3 + 2 ^ 104 * h.h4

structure Key26.Fits (k : Key26) : Prop where
  r0 : k.r0 < 2 ^ 26
  r1 : k.r1 < 2 ^ 26
  r2 : k.r2 < 2 ^ 26
  r3 : k.r3 < 2 ^ 26
  r4 : k.r4 < 2 ^ 20
  pad0 : k.pad0 < 2 ^ 32
  pad1 : k.pad1 < 2 ^ 32
  pad2 : k.pad2 < 2 ^ 32
  pad3 : k.pad3 < 2 ^ 32

/-- The bounds between two blocks: one limb may be a little too large. -/
structure Acc26.Fits (h : Acc26) : Prop where
  h0 : h.h0 < 2 ^ 26
  h1 : h.h1 < 2 ^ 26 + 2 ^ 6
  h2 : h.h2 < 2 ^ 26
  h3 : h.h3 < 2 ^ 26
  h4 : h.h4 < 2 ^ 26

structure Acc26.Tight (h : Acc26) : Prop where
  h0 : h.h0 < 2 ^ 26
  h1 : h.h1 < 2 ^ 26
  h2 : h.h2 < 2 ^ 26
  h3 : h.h3 < 2 ^ 26
  h4 : h.h4 < 2 ^ 26

theorem and_m26 (x : Nat) : x &&& m26 = x % 2 ^ 26 :=
  Limbs.and_mask x 26

/-- A word from the middle of sixteen bytes. -/
theorem ld32le_drop {p : Bytes} (n : Nat) (h : n + 4 ≤ 16) (hp : 16 ≤ p.length) :
    ld32le (p.drop n) = leValue (p.take 16) / 2 ^ (8 * n) % 2 ^ 32 := by
  have hpow : 256 ^ 16 = 256 ^ n * 256 ^ (16 - n) := by
    rw [← Nat.pow_add]
    exact congrArg (256 ^ ·) (by omega)
  have hdvd : 2 ^ 32 ∣ 256 ^ (16 - n) := by
    rw [show 256 = 2 ^ 8 from rfl, ← Nat.pow_mul]
    exact Nat.pow_dvd_pow 2 (by omega)
  rw [ld32le_eq (by rw [List.length_drop]; omega), Limbs.leValue_drop, Limbs.leValue_take, hpow, Nat.pow_mul,
    Nat.mod_mul_right_div_self, Nat.mod_mod_of_dvd _ hdvd]

/-- The five limbs that a block or a key is read as. -/
theorem limbs26 {p : Bytes} (hp : 16 ≤ p.length) : ∃ m0 m1 m2 m3 m4, ld32le p % 2 ^ 26 = m0 ∧
    ld32le (p.drop 3) / 2 ^ 2 % 2 ^ 26 = m1 ∧ ld32le (p.drop 6) / 2 ^ 4 % 2 ^ 26 = m2 ∧
    ld32le (p.drop 9) / 2 ^ 6 % 2 ^ 26 = m3 ∧ ld32le (p.drop 12) / 2 ^ 8 = m4 ∧ m0 < 2 ^ 26 ∧ m1 < 2 ^ 26 ∧
    m2 < 2 ^ 26 ∧ m3 < 2 ^ 26 ∧ m4 < 2 ^ 24 ∧
    m0 + 2 ^ 26 * m1 + 2 ^ 52 * m2 + 2 ^ 78 * m3 + 2 ^ 104 * m4 = leValue (p.take 16) := by
  have ht0 := ld32le_drop 0 (by decide) hp
  have ht1 := ld32le_drop 3 (by decide) hp
  have ht2 := ld32le_drop 6 (by decide) hp
  have ht3 := ld32le_drop 9 (by decide) hp
  have ht4 := ld32le_drop 12 (by decide) hp
  rw [List.drop_zero] at ht0
  have hM : leValue (p.take 16) < 2 ^ 128 := by
    rw [Limbs.leValue_take]
    exact Nat.mod_lt _ (by decide)
  rw [ht0, ht1, ht2, ht3, ht4]
  generalize leValue (p.take 16) = M at *
  refine ⟨_, _, _, _, _, rfl, rfl, rfl, rfl, rfl, Nat.mod_lt _ (by decide), Nat.mod_lt _ (by decide),
    Nat.mod_lt _ (by decide), Nat.mod_lt _ (by decide), ?_, ?_⟩
  · omega
  · clear ht0 ht1 ht2 ht3 ht4
    omega

theorem dot5_le {x0 x1 x2 x3 x4 c0 c1 c2 c3 c4 X C : Nat} (hx0 : x0 ≤ X) (hx1 : x1 ≤ X) (hx2 : x2 ≤ X) (hx3 : x3 ≤ X)
    (hx4 : x4 ≤ X) (hc0 : c0 ≤ C) (hc1 : c1 ≤ C) (hc2 : c2 ≤ C) (hc3 : c3 ≤ C) (hc4 : c4 ≤ C) :
    x0 * c0 + x1 * c1 + x2 * c2 + x3 * c3 + x4 * c4 ≤ 5 * (X * C) := by
  have h0 := Nat.mul_le_mul hx0 hc0
  have h1 := Nat.mul_le_mul hx1 hc1
  have h2 := Nat.mul_le_mul hx2 hc2
  have h3 := Nat.mul_le_mul hx3 hc3
  have h4 := Nat.mul_le_mul hx4 hc4
  omega

/-- The product of two values in limbs, reduced by the prime. -/
theorem product26 (h0 h1 h2 h3 h4 r0 r1 r2 r3 r4 : Nat) :
    (h0 + 2 ^ 26 * h1 + 2 ^ 52 * h2 + 2 ^ 78 * h3 + 2 ^ 104 * h4) *
        (r0 + 2 ^ 26 * r1 + 2 ^ 52 * r2 + 2 ^ 78 * r3 + 2 ^ 104 * r4) =
      (h0 * r0 + h1 * (r4 * 5) + h2 * (r3 * 5) + h3 * (r2 * 5) + h4 * (r1 * 5)) +
        2 ^ 26 * (h0 * r1 + h1 * r0 + h2 * (r4 * 5) + h3 * (r3 * 5) + h4 * (r2 * 5)) +
        2 ^ 52 * (h0 * r2 + h1 * r1 + h2 * r0 + h3 * (r4 * 5) + h4 * (r3 * 5)) +
        2 ^ 78 * (h0 * r3 + h1 * r2 + h2 * r1 + h3 * r0 + h4 * (r4 * 5)) +
        2 ^ 104 * (h0 * r4 + h1 * r3 + h2 * r2 + h3 * r1 + h4 * r0) +
        Poly1305.prime * ((h1 * r4 + h2 * r3 + h3 * r2 + h4 * r1) + 2 ^ 26 * (h2 * r4 + h3 * r3 + h4 * r2) +
          2 ^ 52 * (h3 * r4 + h4 * r3) + 2 ^ 78 * (h4 * r4)) := by
  rw [prime_eq]
  ring

theorem polyBlock26_sound {k : Key26} {h : Acc26} {m : Bytes} (hk : k.Fits) (hh : h.Fits) (hm : 16 ≤ m.length)
    (full : Bool) : Returns (polyBlock26 k h m full) fun h' => h'.Fits ∧
      h'.value ≡ (h.value + leValue (m.take 16) + if full then 2 ^ 128 else 0) * k.value [MOD Poly1305.prime] := by
  obtain ⟨a0, a1, a2, a3, a4⟩ := h
  obtain ⟨r0, r1, r2, r3, r4, p0, p1, p2, p3⟩ := k
  have hr0 : r0 < 2 ^ 26 := hk.r0
  have hr1 : r1 < 2 ^ 26 := hk.r1
  have hr2 : r2 < 2 ^ 26 := hk.r2
  have hr3 : r3 < 2 ^ 26 := hk.r3
  have hr4 : r4 < 2 ^ 20 := hk.r4
  have ha0 : a0 < 2 ^ 26 := hh.h0
  have ha1 : a1 < 2 ^ 26 + 2 ^ 6 := hh.h1
  have ha2 : a2 < 2 ^ 26 := hh.h2
  have ha3 : a3 < 2 ^ 26 := hh.h3
  have ha4 : a4 < 2 ^ 26 := hh.h4
  obtain ⟨m0, m1, m2, m3, m4, ht0, ht1, ht2, ht3, ht4, hm0, hm1, hm2, hm3, hm4, hM⟩ := limbs26 hm
  obtain ⟨top, htop, htop', hor, htopLe⟩ : ∃ top, (if full then 1 <<< 24 else 0) = top ∧
      (if full then 2 ^ 128 else 0) = 2 ^ 104 * top ∧ m4 ||| top = m4 + top ∧ top ≤ 2 ^ 24 := by
    cases full with
    | true => exact ⟨2 ^ 24, rfl, rfl, (Limbs.or_shift hm4 1).trans (by rw [Nat.mul_one]), le_refl _⟩
    | false => exact ⟨0, rfl, rfl, Nat.or_zero m4, Nat.zero_le _⟩
  have hlow (x : Nat) : x % 2 ^ 32 % 2 ^ 26 = x % 2 ^ 26 := Nat.mod_mod_of_dvd x (by decide)
  unfold polyBlock26
  simp only [and_m26, Nat.shiftRight_eq_div_pow, hlow]
  rw [ht0, ht1, ht2, ht3, ht4, htop, htop', hor, ← hM]
  clear ht0 ht1 ht2 ht3 ht4 hor htop htop' hM hk hh hm
  refine .fit (by omega) fun s1 hs1 => .fit (by omega) fun s2 hs2 => ?_
  refine .fit (by omega) fun s3 hs3 => .fit (by omega) fun s4 hs4 => ?_
  refine .fit (by omega) fun x0 hx0 => .fit (by omega) fun x1 hx1 => .fit (by omega) fun x2 hx2 => ?_
  refine .fit (by omega) fun x3 hx3 => .fit (by omega) fun x4 hx4 => ?_
  have hX : x0 + 2 ^ 26 * x1 + 2 ^ 52 * x2 + 2 ^ 78 * x3 + 2 ^ 104 * x4 = (Acc26.mk a0 a1 a2 a3 a4).value +
      (m0 + 2 ^ 26 * m1 + 2 ^ 52 * m2 + 2 ^ 78 * m3 + 2 ^ 104 * m4) + 2 ^ 104 * top := by
    unfold Acc26.value
    dsimp only
    omega
  have hX0 : x0 ≤ 2 ^ 27 + 2 ^ 6 := by omega
  have hX1 : x1 ≤ 2 ^ 27 + 2 ^ 6 := by omega
  have hX2 : x2 ≤ 2 ^ 27 + 2 ^ 6 := by omega
  have hX3 : x3 ≤ 2 ^ 27 + 2 ^ 6 := by omega
  have hX4 : x4 ≤ 2 ^ 27 + 2 ^ 6 := by omega
  have hprod := product26 x0 x1 x2 x3 x4 r0 r1 r2 r3 r4
  rw [hX, ← hs1, ← hs2, ← hs3, ← hs4] at hprod
  have hmod := folded hprod.symm
  have hS0 : r0 ≤ 5 * 2 ^ 26 := by omega
  have hS1 : r1 ≤ 5 * 2 ^ 26 := by omega
  have hS2 : r2 ≤ 5 * 2 ^ 26 := by omega
  have hS3 : r3 ≤ 5 * 2 ^ 26 := by omega
  have hS1' : s1 ≤ 5 * 2 ^ 26 := by omega
  have hS2' : s2 ≤ 5 * 2 ^ 26 := by omega
  have hS3' : s3 ≤ 5 * 2 ^ 26 := by omega
  have hS4' : s4 ≤ 5 * 2 ^ 26 := by omega
  have hD0 := dot5_le hX0 hX1 hX2 hX3 hX4 hS0 hS4' hS3' hS2' hS1'
  have hD1 := dot5_le hX0 hX1 hX2 hX3 hX4 hS1 hS0 hS4' hS3' hS2'
  have hD2 := dot5_le hX0 hX1 hX2 hX3 hX4 hS2 hS1 hS0 hS4' hS3'
  have hD3 := dot5_le hX0 hX1 hX2 hX3 hX4 hS3 hS2 hS1 hS0 hS4'
  have hD4 := dot5_le hX0 hX1 hX2 hX3 hX4 (show r4 ≤ 2 ^ 26 by omega) hr3.le hr2.le hr1.le hr0.le
  clear hprod hX0 hX1 hX2 hX3 hX4 hS0 hS1 hS2 hS3 hS1' hS2' hS3' hS4' hs1 hs2 hs3 hs4 hx0 hx1 hx2 hx3 hx4 hX
  clear hr0 hr1 hr2 hr3 hr4 ha0 ha1 ha2 ha3 ha4 hm0 hm1 hm2 hm3 hm4 htopLe hlow
  generalize x0 * r0 + x1 * s4 + x2 * s3 + x3 * s2 + x4 * s1 = n0 at *
  generalize x0 * r1 + x1 * r0 + x2 * s4 + x3 * s3 + x4 * s2 = n1 at *
  generalize x0 * r2 + x1 * r1 + x2 * r0 + x3 * s4 + x4 * s3 = n2 at *
  generalize x0 * r3 + x1 * r2 + x2 * r1 + x3 * r0 + x4 * s4 = n3 at *
  generalize x0 * r4 + x1 * r3 + x2 * r2 + x3 * r1 + x4 * r0 = n4 at *
  refine .fit (by omega) fun d0 hd0 => .fit (by omega) fun d1 hd1 => .fit (by omega) fun d2 hd2 => ?_
  refine .fit (by omega) fun d3 hd3 => .fit (by omega) fun d4 hd4 => ?_
  subst hd0 hd1 hd2 hd3 hd4
  refine .fit (by omega) fun c0 hc0 => .fit (by omega) fun y0 hy0 => .fit (by omega) fun e1 he1 => ?_
  refine .fit (by omega) fun c1 hc1 => .fit (by omega) fun y1 hy1 => .fit (by omega) fun e2 he2 => ?_
  refine .fit (by omega) fun c2 hc2 => .fit (by omega) fun y2 hy2 => .fit (by omega) fun e3 he3 => ?_
  refine .fit (by omega) fun c3 hc3 => .fit (by omega) fun y3 hy3 => .fit (by omega) fun e4 he4 => ?_
  refine .fit (by omega) fun c4 hc4 => .fit (by omega) fun y4 hy4 => .fit (by omega) fun c5 hc5 => ?_
  refine .fit (by omega) fun z0 hz0 => .fit (by omega) fun c6 hc6 => .fit (by omega) fun w0 hw0 => ?_
  refine .fit (by omega) fun w1 hw1 => .done ?_
  have hcarry : (Acc26.mk w0 w1 y2 y3 y4).value + Poly1305.prime * c4 =
      d0 + 2 ^ 26 * d1 + 2 ^ 52 * d2 + 2 ^ 78 * d3 + 2 ^ 104 * d4 := by
    rw [prime_eq]
    show w0 + 2 ^ 26 * w1 + 2 ^ 52 * y2 + 2 ^ 78 * y3 + 2 ^ 104 * y4 + _ = _
    omega
  refine ⟨⟨?_, ?_, ?_, ?_, ?_⟩, (folded hcarry).trans hmod⟩
  · show w0 < 2 ^ 26
    omega
  · show w1 < 2 ^ 26 + 2 ^ 6
    omega
  · show y2 < 2 ^ 26
    omega
  · show y3 < 2 ^ 26
    omega
  · show y4 < 2 ^ 26
    omega

theorem polySetup26_sound {key : Bytes} (hkey : 32 ≤ key.length) : (polySetup26 key).Fits ∧
    (polySetup26 key).value = Poly1305.clamp (leValue (key.take 16)) ∧
      (polySetup26 key).pad = leValue ((key.drop 16).take 16) := by
  have hdrop : 16 ≤ (key.drop 16).length := by
    rw [List.length_drop]
    omega
  obtain ⟨m0, m1, m2, m3, m4, ht0, ht1, ht2, ht3, ht4, hm0, hm1, hm2, hm3, hm4, hM⟩ :=
    limbs26 (Nat.le_trans (by decide) hkey)
  have hp0 := ld32le_drop 0 (by decide) hdrop
  have hp1 := ld32le_drop 4 (by decide) hdrop
  have hp2 := ld32le_drop 8 (by decide) hdrop
  have hp3 := ld32le_drop 12 (by decide) hdrop
  rw [List.drop_drop] at hp0 hp1 hp2 hp3
  have hP : leValue ((key.drop 16).take 16) < 2 ^ 128 := by
    rw [Limbs.leValue_take]
    exact Nat.mod_lt _ (by decide)
  have hclamp : Poly1305.clamp (leValue (key.take 16)) = (m0 &&& 0x03ffffff) + 2 ^ 26 * ((m1 &&& 0x03ffff03) +
      2 ^ 26 * ((m2 &&& 0x03ffc0ff) + 2 ^ 26 * ((m3 &&& 0x03f03fff) + 2 ^ 26 * (m4 &&& 0x000fffff)))) := by
    have hsplit : leValue (key.take 16) = m0 + 2 ^ 26 * (m1 + 2 ^ 26 * (m2 + 2 ^ 26 * (m3 + 2 ^ 26 * m4))) := by omega
    rw [← Limbs.and_split 26 _ _ hm3 (by decide), ← Limbs.and_split 26 _ _ hm2 (by decide),
      ← Limbs.and_split 26 _ _ hm1 (by decide), ← Limbs.and_split 26 _ _ hm0 (by decide), ← hsplit]
    rfl
  have hr0 : ld32le key &&& 0x03ffffff = m0 &&& 0x03ffffff := by
    rw [Limbs.and_low 26 _ (by decide), ht0]
  have hr1 : ld32le (key.drop 3) / 2 ^ 2 &&& 0x03ffff03 = m1 &&& 0x03ffff03 := by
    rw [Limbs.and_low 26 _ (by decide), ht1]
  have hr2 : ld32le (key.drop 6) / 2 ^ 4 &&& 0x03ffc0ff = m2 &&& 0x03ffc0ff := by
    rw [Limbs.and_low 26 _ (by decide), ht2]
  have hr3 : ld32le (key.drop 9) / 2 ^ 6 &&& 0x03f03fff = m3 &&& 0x03f03fff := by
    rw [Limbs.and_low 26 _ (by decide), ht3]
  unfold polySetup26
  simp only [Nat.shiftRight_eq_div_pow]
  rw [hr0, hr1, hr2, hr3, ht4, hclamp]
  have hb0 : m0 &&& 0x03ffffff ≤ 0x03ffffff := Nat.and_le_right
  have hb1 : m1 &&& 0x03ffff03 ≤ 0x03ffff03 := Nat.and_le_right
  have hb2 : m2 &&& 0x03ffc0ff ≤ 0x03ffc0ff := Nat.and_le_right
  have hb3 : m3 &&& 0x03f03fff ≤ 0x03f03fff := Nat.and_le_right
  have hb4 : m4 &&& 0x000fffff ≤ 0x000fffff := Nat.and_le_right
  refine ⟨⟨?_, ?_, ?_, ?_, ?_, ?_, ?_, ?_, ?_⟩, ?_, ?_⟩
  · exact Nat.lt_of_le_of_lt hb0 (by decide)
  · exact Nat.lt_of_le_of_lt hb1 (by decide)
  · exact Nat.lt_of_le_of_lt hb2 (by decide)
  · exact Nat.lt_of_le_of_lt hb3 (by decide)
  · exact Nat.lt_of_le_of_lt hb4 (by decide)
  · exact hp0 ▸ Nat.mod_lt _ (by decide)
  · exact hp1 ▸ Nat.mod_lt _ (by decide)
  · exact hp2 ▸ Nat.mod_lt _ (by decide)
  · exact hp3 ▸ Nat.mod_lt _ (by decide)
  · unfold Key26.value
    dsimp only
    omega
  · unfold Key26.pad
    dsimp only
    rw [hp0, hp1, hp2, hp3]
    clear hp0 hp1 hp2 hp3 hclamp hr0 hr1 hr2 hr3 ht0 ht1 ht2 ht3 ht4 hM
    generalize leValue ((key.drop 16).take 16) = N at *
    omega

theorem polyCarry26_sound {h : Acc26} (hh : h.Fits) : Returns (polyCarry26 h) fun h' => h'.Tight ∧
    h'.value ≡ h.value [MOD Poly1305.prime] := by
  obtain ⟨x0, x1, x2, x3, x4⟩ := h
  have hh0 : x0 < 2 ^ 26 := hh.h0
  have hh1 : x1 < 2 ^ 26 + 2 ^ 6 := hh.h1
  have hh2 : x2 < 2 ^ 26 := hh.h2
  have hh3 : x3 < 2 ^ 26 := hh.h3
  have hh4 : x4 < 2 ^ 26 := hh.h4
  unfold polyCarry26
  simp only [and_m26, Nat.shiftRight_eq_div_pow]
  refine .fit (by omega) fun c1 hc1 => .fit (by omega) fun y1 hy1 => .fit (by omega) fun e2 he2 => ?_
  have hc1' : c1 = 0 ∨ c1 = 1 ∧ y1 < 2 ^ 6 := by omega
  refine .fit (by omega) fun c2 hc2 => .fit (by omega) fun y2 hy2 => .fit (by omega) fun e3 he3 => ?_
  have hc2' : c2 = 0 ∨ c2 = 1 ∧ y1 < 2 ^ 6 := by omega
  refine .fit (by omega) fun c3 hc3 => .fit (by omega) fun y3 hy3 => .fit (by omega) fun e4 he4 => ?_
  have hc3' : c3 = 0 ∨ c3 = 1 ∧ y1 < 2 ^ 6 := by omega
  refine .fit (by omega) fun c4 hc4 => .fit (by omega) fun y4 hy4 => .fit (by omega) fun z0 hz0 => ?_
  have hc4' : c4 = 0 ∨ c4 = 1 ∧ y1 < 2 ^ 6 := by omega
  have hy1' : y1 < 2 ^ 26 := by omega
  have hsum : z0 + 2 ^ 26 * y1 + 2 ^ 52 * y2 + 2 ^ 78 * y3 + 2 ^ 104 * y4 + Poly1305.prime * c4 =
      x0 + 2 ^ 26 * x1 + 2 ^ 52 * x2 + 2 ^ 78 * x3 + 2 ^ 104 * x4 := by
    rw [prime_eq]
    omega
  have hy2' : y2 < 2 ^ 26 := by omega
  have hy3' : y3 < 2 ^ 26 := by omega
  have hy4' : y4 < 2 ^ 26 := by omega
  clear hh hh1 hh2 hh3 hh4 hc1 hy1 he2 hc1' hc2 hy2 he3 hc2' hc3 hy3 he4 hc3' hc4 hy4
  refine .fit (by omega) fun c0 hc0 => .fit (by omega) fun w0 hw0 => .fit (by omega) fun w1 hw1 => .done ?_
  refine ⟨⟨?_, ?_, hy2', hy3', hy4'⟩, folded (q := c4) ?_⟩
  · show w0 < 2 ^ 26
    omega
  · show w1 < 2 ^ 26
    omega
  · show w0 + 2 ^ 26 * w1 + 2 ^ 52 * y2 + 2 ^ 78 * y3 + 2 ^ 104 * y4 + _ = x0 + 2 ^ 26 * x1 + 2 ^ 52 * x2 +
      2 ^ 78 * x3 + 2 ^ 104 * x4
    rw [← hsum]
    omega

theorem polyReduce26_sound {h : Acc26} (hh : h.Tight) : Returns (polyReduce26 h) fun h' => h'.Tight ∧
    h'.value = h.value % Poly1305.prime := by
  obtain ⟨x0, x1, x2, x3, x4⟩ := h
  have hh0 : x0 < 2 ^ 26 := hh.h0
  have hh1 : x1 < 2 ^ 26 := hh.h1
  have hh2 : x2 < 2 ^ 26 := hh.h2
  have hh3 : x3 < 2 ^ 26 := hh.h3
  have hh4 : x4 < 2 ^ 26 := hh.h4
  unfold polyReduce26
  simp only [and_m26, Nat.shiftRight_eq_div_pow]
  refine .fit (by omega) fun g0 hg0 => .fit (by omega) fun c hc => .fit (by omega) fun y0 hy0 => ?_
  refine .fit (by omega) fun g1 hg1 => .fit (by omega) fun d hd => .fit (by omega) fun y1 hy1 => ?_
  refine .fit (by omega) fun g2 hg2 => .fit (by omega) fun e he => .fit (by omega) fun y2 hy2 => ?_
  refine .fit (by omega) fun g3 hg3 => .fit (by omega) fun f hf => .fit (by omega) fun y3 hy3 => ?_
  refine .fit (by omega) fun g4 hg4 => .done ?_
  have hsum : y0 + 2 ^ 26 * y1 + 2 ^ 52 * y2 + 2 ^ 78 * y3 + 2 ^ 104 * g4 =
      x0 + 2 ^ 26 * x1 + 2 ^ 52 * x2 + 2 ^ 78 * x3 + 2 ^ 104 * x4 + 5 := by omega
  have hy0' : y0 < 2 ^ 26 := by omega
  have hy1' : y1 < 2 ^ 26 := by omega
  have hy2' : y2 < 2 ^ 26 := by omega
  have hy3' : y3 < 2 ^ 26 := by omega
  have hg4' : g4 ≤ 2 ^ 26 := by omega
  clear hg0 hc hy0 hg1 hd hy1 hg2 he hy2 hg3 hf hy3 hg4
  have htop : (1 : Nat) <<< 26 = 2 ^ 26 := rfl
  have hvalue : (Acc26.mk x0 x1 x2 x3 x4).value = x0 + 2 ^ 26 * x1 + 2 ^ 52 * x2 + 2 ^ 78 * x3 + 2 ^ 104 * x4 := rfl
  rw [htop, hvalue, prime_eq]
  by_cases hge : 2 ^ 26 ≤ g4
  · have hwrap : subWrap 32 g4 (2 ^ 26) = g4 - 2 ^ 26 := by
      unfold subWrap
      omega
    have hmask : subWrap 32 ((g4 - 2 ^ 26) / 2 ^ 31) 1 = 2 ^ 32 - 1 := by
      unfold subWrap
      omega
    rw [hwrap, hmask, maskSelect_ones (by omega), maskSelect_ones (by omega), maskSelect_ones (by omega),
      maskSelect_ones (by omega), maskSelect_ones (by omega)]
    refine ⟨⟨hy0', hy1', hy2', hy3', ?_⟩, ?_⟩
    · show g4 - 2 ^ 26 < 2 ^ 26
      omega
    · show y0 + 2 ^ 26 * y1 + 2 ^ 52 * y2 + 2 ^ 78 * y3 + 2 ^ 104 * (g4 - 2 ^ 26) = _
      omega
  · have hmask : subWrap 32 (subWrap 32 g4 (2 ^ 26) / 2 ^ 31) 1 = 0 := by
      unfold subWrap
      omega
    rw [hmask, maskSelect_zero (by omega), maskSelect_zero (by omega), maskSelect_zero (by omega),
      maskSelect_zero (by omega), maskSelect_zero (by omega)]
    refine ⟨hh, ?_⟩
    show x0 + 2 ^ 26 * x1 + 2 ^ 52 * x2 + 2 ^ 78 * x3 + 2 ^ 104 * x4 = _
    omega

/-- One word of the packed accumulator: the high bits of one limb below the low bits of the next. -/
theorem pack26 {a : Nat} (b i j : Nat) (ha : a < 2 ^ 26) (hij : i + j = 26) :
    (a / 2 ^ i ||| shl32 b j) &&& 0xffffffff = a / 2 ^ i + 2 ^ j * (b % 2 ^ (32 - j)) := by
  have hpow : 2 ^ 32 = 2 ^ (32 - j) * 2 ^ j := by
    rw [← Nat.pow_add]
    exact congrArg (2 ^ ·) (by omega)
  have hshl : shl32 b j = (b % 2 ^ (32 - j)) <<< j := by
    rw [shl32, Nat.shiftLeft_eq, hpow, Nat.mul_mod_mul_right, Nat.shiftLeft_eq]
  have hlow : a / 2 ^ i < 2 ^ j := by
    rw [Nat.div_lt_iff_lt_mul (Nat.two_pow_pos i), ← Nat.pow_add, Nat.add_comm, hij]
    exact ha
  have hhigh : b % 2 ^ (32 - j) + 1 ≤ 2 ^ (32 - j) := Nat.mod_lt b (Nat.two_pow_pos _)
  have hmul := Nat.mul_le_mul_left (2 ^ j) hhigh
  rw [Nat.mul_comm _ (2 ^ (32 - j)), ← hpow, Nat.mul_add, Nat.mul_one] at hmul
  have hmask := Limbs.and_mask (a / 2 ^ i ||| shl32 b j) 32
  rw [show 2 ^ 32 - 1 = 0xffffffff from rfl] at hmask
  rw [hmask, hshl, Limbs.or_shift hlow, Nat.mod_eq_of_lt]
  omega

theorem polyPad26_sound {k : Key26} {h : Acc26} (hk : k.Fits) (hh : h.Tight) :
    polyPad26 k h = some (leBytes 16 ((h.value + k.pad) % 2 ^ 128)) := by
  obtain ⟨x0, x1, x2, x3, x4⟩ := h
  obtain ⟨r0, r1, r2, r3, r4, t0, t1, t2, t3⟩ := k
  have hh0 : x0 < 2 ^ 26 := hh.h0
  have hh1 : x1 < 2 ^ 26 := hh.h1
  have hh2 : x2 < 2 ^ 26 := hh.h2
  have hh3 : x3 < 2 ^ 26 := hh.h3
  have ht0 : t0 < 2 ^ 32 := hk.pad0
  have ht1 : t1 < 2 ^ 32 := hk.pad1
  have ht2 : t2 < 2 ^ 32 := hk.pad2
  have ht3 : t3 < 2 ^ 32 := hk.pad3
  suffices hpad : Returns (polyPad26 ⟨r0, r1, r2, r3, r4, t0, t1, t2, t3⟩ ⟨x0, x1, x2, x3, x4⟩) fun out =>
      out = leBytes 16 ((x0 + 2 ^ 26 * x1 + 2 ^ 52 * x2 + 2 ^ 78 * x3 + 2 ^ 104 * x4 +
        (t0 + 2 ^ 32 * t1 + 2 ^ 64 * t2 + 2 ^ 96 * t3)) % 2 ^ 128) by
    obtain ⟨out, hout, rfl⟩ := hpad
    exact hout
  have hp0 := pack26 x1 0 26 hh0 rfl
  have hp1 := pack26 x2 6 20 hh1 rfl
  have hp2 := pack26 x3 12 14 hh2 rfl
  have hp3 := pack26 x4 18 8 hh3 rfl
  rw [Nat.pow_zero, Nat.div_one] at hp0
  unfold polyPad26
  simp only [Nat.shiftRight_eq_div_pow]
  rw [hp0, hp1, hp2, hp3]
  have hsum : x0 + 2 ^ 26 * x1 + 2 ^ 52 * x2 + 2 ^ 78 * x3 + 2 ^ 104 * x4 = x0 + 2 ^ 26 * (x1 % 2 ^ (32 - 26)) +
      2 ^ 32 * (x1 / 2 ^ 6 + 2 ^ 20 * (x2 % 2 ^ (32 - 20))) + 2 ^ 64 * (x2 / 2 ^ 12 + 2 ^ 14 * (x3 % 2 ^ (32 - 14))) +
      2 ^ 96 * (x3 / 2 ^ 18 + 2 ^ 8 * (x4 % 2 ^ (32 - 8))) + 2 ^ 128 * (x4 / 2 ^ 24) := by omega
  have hv0 : x0 + 2 ^ 26 * (x1 % 2 ^ (32 - 26)) < 2 ^ 32 := by omega
  have hv1 : x1 / 2 ^ 6 + 2 ^ 20 * (x2 % 2 ^ (32 - 20)) < 2 ^ 32 := by omega
  have hv2 : x2 / 2 ^ 12 + 2 ^ 14 * (x3 % 2 ^ (32 - 14)) < 2 ^ 32 := by omega
  have hv3 : x3 / 2 ^ 18 + 2 ^ 8 * (x4 % 2 ^ (32 - 8)) < 2 ^ 32 := by omega
  rw [hsum]
  clear hsum hp0 hp1 hp2 hp3 hh0 hh1 hh2 hh3 hh hk
  generalize x0 + 2 ^ 26 * (x1 % 2 ^ (32 - 26)) = v0 at *
  generalize x1 / 2 ^ 6 + 2 ^ 20 * (x2 % 2 ^ (32 - 20)) = v1 at *
  generalize x2 / 2 ^ 12 + 2 ^ 14 * (x3 % 2 ^ (32 - 14)) = v2 at *
  generalize x3 / 2 ^ 18 + 2 ^ 8 * (x4 % 2 ^ (32 - 8)) = v3 at *
  generalize x4 / 2 ^ 24 = top
  refine .fit (by omega) fun f0 hf0 => .fit (by omega) fun f1 hf1 => .fit (by omega) fun f2 hf2 => ?_
  refine .fit (by omega) fun f3 hf3 => .done ?_
  have hword {a b : Nat} (ha : a < 2 ^ 32) (hb : b < 2 ^ 32) : a ||| shl64 b 32 = a + 2 ^ 32 * b := by
    have hshl : shl64 b 32 = b <<< 32 := by
      rw [shl64, Nat.shiftLeft_eq]
      omega
    rw [hshl, Limbs.or_shift ha]
  rw [hword (Nat.mod_lt _ (by decide)) (Nat.mod_lt _ (by decide)),
    hword (Nat.mod_lt _ (by decide)) (Nat.mod_lt _ (by decide)), st64le_append _ (by omega)]
  refine congrArg (leBytes 16) ?_
  omega

theorem polyDone26_sound {k : Key26} {h : Acc26} (hk : k.Fits) (hh : h.Fits) :
    polyDone26 k h = some (leBytes 16 ((h.value % Poly1305.prime + k.pad) % 2 ^ 128)) := by
  obtain ⟨h₁, hrun₁, htight₁, hmod⟩ := polyCarry26_sound hh
  obtain ⟨h₂, hrun₂, htight₂, hvalue⟩ := polyReduce26_sound htight₁
  have hpad := polyPad26_sound hk htight₂
  have hmod' : h₁.value % Poly1305.prime = h.value % Poly1305.prime := hmod
  rw [hvalue, hmod'] at hpad
  rw [polyDone26, hrun₁, Option.bind_eq_bind, Option.bind_some, hrun₂, Option.bind_some, hpad]

end Narrow

end Qanat
