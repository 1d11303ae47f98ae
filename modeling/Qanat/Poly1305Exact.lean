import Qanat.Poly1305Narrow

namespace Qanat

open Limbs (leValue leBytes Returns)
open Splice (splice)
open BlockStream (Holds run chunks)

variable {R H : Type} {P : PolyRadix R H} {key buf m d : Bytes}

/-- What the key and the accumulator of a size of limbs stand for, and the bounds that are kept between two blocks. -/
structure PolyMeaning (R H : Type) where
  keyFits : R → Prop
  multiplier : R → Nat
  pad : R → Nat
  accFits : H → Prop
  value : H → Nat

/-- The operations on limbs compute in the field of the prime, and none of them has an error. -/
structure PolyRadix.Sound (P : PolyRadix R H) (V : PolyMeaning R H) : Prop where
  setup : ∀ key : Bytes, 32 ≤ key.length → V.keyFits (P.setup key) ∧
    V.multiplier (P.setup key) = Poly1305.clamp (leValue (key.take 16)) ∧
      V.pad (P.setup key) = leValue ((key.drop 16).take 16)
  zero : V.accFits P.zero ∧ V.value P.zero = 0
  block : ∀ {k : R} {h : H} {m : Bytes}, V.keyFits k → V.accFits h → 16 ≤ m.length → ∀ full,
    Returns (P.block k h m full) fun h' => V.accFits h' ∧ V.value h' ≡
      (V.value h + leValue (m.take 16) + if full then 2 ^ 128 else 0) * V.multiplier k [MOD Poly1305.prime]
  finish : ∀ {k : R} {h : H}, V.keyFits k → V.accFits h →
    P.finish k h = some (leBytes 16 ((V.value h % Poly1305.prime + V.pad k) % 2 ^ 128))

def meaning44 : PolyMeaning Key44 Acc44 :=
  ⟨Key44.Fits, Key44.value, Key44.pad, Acc44.Fits, Acc44.value⟩

def meaning26 : PolyMeaning Key26 Acc26 :=
  ⟨Key26.Fits, Key26.value, Key26.pad, Acc26.Fits, Acc26.value⟩

theorem radix44_sound : radix44.Sound meaning44 where
  setup _ := polySetup44_sound
  zero := ⟨⟨by decide, by decide, by decide⟩, rfl⟩
  block hk hh hm full := polyBlock44_sound hk hh hm full
  finish := polyDone44_sound

theorem radix26_sound : radix26.Sound meaning26 where
  setup _ := polySetup26_sound
  zero := ⟨⟨by decide, by decide, by decide, by decide, by decide⟩, rfl⟩
  block hk hh hm full := polyBlock26_sound hk hh hm full
  finish := polyDone26_sound

section Stream

/-- One block of the sum, without a reduction. -/
def absorb (r a : Nat) (b : Bytes) : Nat :=
  (a + Poly1305.blockValue b) * r

theorem blockValue_whole {b : Bytes} (h : b.length = 16) : Poly1305.blockValue b = leValue b + 2 ^ 128 := by
  rw [Poly1305.blockValue, h]

variable {V : PolyMeaning R H}

/-- Whole blocks are absorbed in order. -/
theorem polyRun_full (hs : P.Sound V) {k : R} (hk : V.keyFits k) {h : H} (hh : V.accFits h) {a : Nat}
    (ha : V.value h ≡ a [MOD Poly1305.prime]) (m : Bytes) : Returns (polyRun P k h m true) fun h' => V.accFits h' ∧
      V.value h' ≡ (run (absorb (V.multiplier k)) 16 a m).1 [MOD Poly1305.prime] := by
  induction hn : m.length using Nat.strong_induction_on generalizing h a m with
  | _ n ih =>
    subst hn
    rw [polyRun]
    by_cases hlong : 16 ≤ m.length
    · rw [if_pos hlong]
      refine (hs.block hk hh hlong true).bind fun h₁ ⟨hh₁, hv₁⟩ => ?_
      have hlen : (m.take 16).length = 16 := List.length_take_of_le hlong
      have hstep : V.value h₁ ≡ absorb (V.multiplier k) a (m.take 16) [MOD Poly1305.prime] := by
        refine hv₁.trans ?_
        rw [absorb, blockValue_whole hlen, if_pos rfl, Nat.add_assoc]
        exact (ha.add_right _).mul_right _
      rw [← List.take_append_drop 16 m, BlockStream.run_block (by decide) hlen, List.take_append_drop]
      exact ih (m.drop 16).length (by rw [List.length_drop]; omega) hh₁ hstep (m.drop 16) rfl
    · rw [if_neg hlong, BlockStream.run_short (Nat.not_le.mp hlong)]
      exact .done ⟨hh, ha⟩

/-- The last, short block, with a bit behind it and zeros. -/
theorem polyRun_last (hs : P.Sound V) {k : R} (hk : V.keyFits k) {h : H} (hh : V.accFits h) {a : Nat}
    (ha : V.value h ≡ a [MOD Poly1305.prime]) {b : Bytes} (hb : b.length < 16) :
    Returns (polyRun P k h (b ++ [1] ++ List.replicate (16 - (b.length + 1)) 0) false) fun h' => V.accFits h' ∧
      V.value h' ≡ absorb (V.multiplier k) a b [MOD Poly1305.prime] := by
  have hlen : (b ++ [1] ++ List.replicate (16 - (b.length + 1)) 0).length = 16 := by
    rw [List.length_append, List.length_append, List.length_replicate, List.length_singleton]
    omega
  have hvalue : leValue (b ++ [1] ++ List.replicate (16 - (b.length + 1)) 0) = Poly1305.blockValue b := by
    rw [Limbs.leValue_append, Limbs.leValue_append, Limbs.leValue_zeros, Poly1305.blockValue, Nat.mul_zero, Nat.add_zero,
      show leValue [1] = 1 from rfl, Nat.mul_one, Nat.pow_mul]
  generalize b ++ [1] ++ List.replicate (16 - (b.length + 1)) 0 = p at *
  rw [polyRun, if_pos hlen.ge]
  refine (hs.block hk hh hlen.ge false).bind fun h₁ ⟨hh₁, hv₁⟩ => ?_
  rw [polyRun, if_neg (by rw [List.length_drop]; omega)]
  refine .done ⟨hh₁, hv₁.trans ?_⟩
  rw [absorb, List.take_of_length_le hlen.le, hvalue, if_neg (by decide), Nat.add_zero]
  exact (ha.add_right _).mul_right _

/-- The state after some bytes: the whole blocks are in the accumulator, the rest is in the buffer. -/
structure Poly.Took (V : PolyMeaning R H) (r : R) (st : Poly R H) (m : Bytes) : Prop where
  key : st.r = r
  fits : V.accFits st.h
  holds : ∃ a, Holds (absorb (V.multiplier r)) 16 0 m a st.buf st.n ∧ V.value st.h ≡ a [MOD Poly1305.prime]

theorem polyInit_took (hs : P.Sound V) (hbuf : buf.length = 16) (key : Bytes) :
    (polyInit P key buf).Took V (P.setup key) [] :=
  ⟨rfl, hs.zero.1, 0, .start (by decide) hbuf, by rw [← hs.zero.2]; rfl⟩

theorem polyFill_took (hs : P.Sound V) {r : R} (hr : V.keyFits r) {st : Poly R H} (ht : st.Took V r m) (d : Bytes) :
    Returns (polyFill P st d) fun p => ∃ b, d = b ++ p.2 ∧ p.1.Took V r (m ++ b) ∧ (p.2 = [] ∨ p.1.n = 0) := by
  obtain ⟨hkey, hfits, a, hholds, ha⟩ := ht
  have hroom := hholds.room
  have hcount := hholds.count
  unfold polyFill
  by_cases hn : st.n = 0
  · rw [if_neg (not_not.mpr hn)]
    exact .done ⟨[], rfl, by rw [List.append_nil]; exact ⟨hkey, hfits, a, hholds, ha⟩, .inr hn⟩
  · rw [if_pos hn]
    dsimp only
    by_cases hshort : d.length < 16 - st.n
    · have htake : min (16 - st.n) d.length = d.length := Nat.min_eq_right hshort.le
      rw [htake, List.take_length, List.drop_length, if_neg (by omega)]
      exact .done ⟨d, (List.append_nil d).symm, ⟨hkey, hfits, a, hholds.fill (by omega), ha⟩, .inl rfl⟩
    · have htake : min (16 - st.n) d.length = 16 - st.n := Nat.min_eq_left (Nat.not_lt.mp hshort)
      have hlen : (d.take (16 - st.n)).length = 16 - st.n := List.length_take_of_le (Nat.not_lt.mp hshort)
      have hfull := hholds.complete (d := d.take (16 - st.n)) (by rw [hlen]; omega)
      rw [htake, if_pos (by omega), hkey]
      refine (polyRun_full hs hr hfits ha _).bind fun h₁ ⟨hh₁, hv₁⟩ => .done ?_
      rw [BlockStream.run_last (by decide) hfull.room] at hv₁
      exact ⟨d.take (16 - st.n), (List.take_append_drop _ d).symm, ⟨rfl, hh₁, _, hfull, hv₁⟩, .inr rfl⟩

theorem polyTail_took {r : R} {st : Poly R H} {h₁ : H} {a a₁ : Nat} (hkey : st.r = r) (hfits : V.accFits h₁)
    (hholds : Holds (absorb (V.multiplier r)) 16 0 m a st.buf 0) (hvalue : V.value h₁ ≡ a₁ [MOD Poly1305.prime])
    {rest : Bytes} (hrun : run (absorb (V.multiplier r)) 16 a d = (a₁, rest)) (hrest : rest.length < 16) (hn : st.n = 0) :
    Poly.Took V r (if rest.length ≠ 0 then ⟨st.r, h₁, splice st.buf 0 rest, rest.length⟩ else ⟨st.r, h₁, st.buf, st.n⟩)
      (m ++ d) := by
  have hroom := hholds.room
  have happend := hholds.append d
  rw [List.take_zero, List.nil_append, hrun] at happend
  split
  next =>
    refine ⟨hkey, hfits, a₁, ⟨?_, hrest, ?_⟩, hvalue⟩
    · exact (Splice.length_splice (by omega)).trans hroom
    · have htake := BlockStream.take_splice (a := rest) (Nat.zero_le st.buf.length)
      rw [Nat.zero_add, List.take_zero, List.nil_append] at htake
      rw [happend, htake]
  next hnil =>
    have hempty : rest = [] := List.length_eq_zero_iff.mp (not_not.mp hnil)
    refine ⟨hkey, hfits, a₁, ⟨hroom, ?_, ?_⟩, hvalue⟩
    · exact hn ▸ (by decide)
    · show run _ 16 0 (m ++ d) = (a₁, st.buf.take st.n)
      rw [happend, hn, List.take_zero, hempty]

theorem polyUpdate_took (hs : P.Sound V) {r : R} (hr : V.keyFits r) {st : Poly R H} (ht : st.Took V r m) (d : Bytes) :
    Returns (polyUpdate P st d) fun st' => st'.Took V r (m ++ d) := by
  unfold polyUpdate
  refine (polyFill_took hs hr ht d).bind fun ⟨st₁, d₁⟩ ⟨b, hb, ht₁, hor⟩ => ?_
  rw [hb, ← List.append_assoc]
  dsimp only at hor ht₁ hb ⊢
  obtain ⟨hkey, hfits, a, hholds, ha⟩ := ht₁
  rcases hor with rfl | hn
  · refine (@Returns.done _ (fun h => h = st₁.h) st₁.h rfl).bind fun h hh => .done ?_
    rw [hh, List.append_nil]
    exact ⟨hkey, hfits, a, hholds, ha⟩
  · rw [hn] at hholds
    by_cases hlong : 16 ≤ d₁.length
    · simp only [if_pos hlong]
      refine (polyRun_full hs (hkey ▸ hr) hfits ha _).bind fun h₁ ⟨hh₁, hv₁⟩ => .done ?_
      rw [hkey] at hv₁
      refine polyTail_took hkey hh₁ hholds hv₁ (BlockStream.run_take (by decide)) ?_ hn
      rw [List.length_drop]
      omega
    · have hshort := Nat.not_le.mp hlong
      simp only [if_neg hlong]
      exact .done (polyTail_took hkey hfits hholds ha (BlockStream.run_short hshort) hshort hn)

theorem polyFinal_tag (hs : P.Sound V) (hkey : 32 ≤ key.length) {st : Poly R H}
    (ht : st.Took V (P.setup key) m) : polyFinal P st = some (Poly1305.tag key m) := by
  obtain ⟨hr, hmul, hpad⟩ := hs.setup key hkey
  obtain ⟨hst, hfits, a, hholds, ha⟩ := ht
  have hroom := hholds.room
  have hcount := hholds.count
  obtain ⟨whole, -, hfold, hchunks⟩ :=
    BlockStream.run_chunks (f := absorb (V.multiplier (P.setup key))) (n := 16) (by decide) 0 m
  rw [hholds.taken] at hfold hchunks
  dsimp only at hfold hchunks
  have hsum (bs : List Bytes) : bs.foldl (absorb (V.multiplier (P.setup key))) 0 =
      Poly1305.weigh (V.multiplier (P.setup key)) (bs.map Poly1305.blockValue) := by
    rw [← Poly1305.foldl_weigh, List.foldl_map]
    rfl
  -- what is left to show of the accumulator that `finish` gets
  suffices hlast : ∃ h₁, polyFinal P st = P.finish st.r h₁ ∧ V.accFits h₁ ∧ V.value h₁ ≡
      Poly1305.weigh (V.multiplier (P.setup key)) ((chunks 16 m).map Poly1305.blockValue) [MOD Poly1305.prime] by
    obtain ⟨h₁, hfinal, hh₁, hv₁⟩ := hlast
    have hv₁' : V.value h₁ % Poly1305.prime = _ % Poly1305.prime := hv₁
    rw [hfinal, hst, hs.finish hr hh₁, hv₁', hmul, hpad, Poly1305.tag]
  unfold polyFinal
  by_cases hn : st.n = 0
  · refine ⟨st.h, by rw [if_neg (not_not.mpr hn)]; rfl, hfits, ?_⟩
    rw [hn, List.take_zero, if_pos rfl, List.append_nil] at hchunks
    rw [hchunks, ← hsum, ← hfold]
    exact ha
  · have hlen : (st.buf.take st.n).length = st.n := List.length_take_of_le (by omega)
    have hne : st.buf.take st.n ≠ [] := fun hnil => hn (by rw [← hlen, hnil]; rfl)
    have hbuf : splice (splice st.buf st.n [1]) (st.n + 1) (List.replicate (16 - (st.n + 1)) 0) =
        st.buf.take st.n ++ [1] ++ List.replicate (16 - ((st.buf.take st.n).length + 1)) 0 := by
      have htake := BlockStream.take_splice (b := st.buf) (a := [1]) (i := st.n) (by omega)
      rw [List.length_singleton] at htake
      rw [BlockStream.splice_end, htake, hlen]
      rw [List.length_replicate, Splice.length_splice (by rw [List.length_singleton]; omega)]
      omega
    obtain ⟨h₁, hrun, hh₁, hv₁⟩ := polyRun_last hs (hst ▸ hr) hfits ha (b := st.buf.take st.n) (by omega)
    refine ⟨h₁, ?_, hh₁, ?_⟩
    · rw [if_pos hn]
      dsimp only
      rw [hbuf, hrun]
      rfl
    · rw [if_neg hne] at hchunks
      rw [hchunks, ← hsum, List.foldl_append, ← hfold]
      rw [hst] at hv₁
      exact hv₁

theorem polyUpdates_took (hs : P.Sound V) {r : R} (hr : V.keyFits r) {st : Poly R H} (ht : st.Took V r m)
    (pieces : List Bytes) : Returns (pieces.foldlM (polyUpdate P) st) fun st' => st'.Took V r (m ++ pieces.flatten) := by
  induction pieces generalizing st m with
  | nil => exact .done (by rwa [List.flatten_nil, List.append_nil])
  | cons d pieces ih =>
    rw [List.foldlM_cons]
    refine (polyUpdate_took hs hr ht d).bind fun st₁ ht₁ => ?_
    have hrest := ih ht₁
    rwa [List.append_assoc] at hrest

end Stream

/-- `qn_poly1305_init`, some updates, `qn_poly1305_final`. -/
def polyTag (P : PolyRadix R H) (key buf : Bytes) (pieces : List Bytes) : Option Bytes :=
  pieces.foldlM (polyUpdate P) (polyInit P key buf) >>= polyFinal P

theorem polyTag_eq {V : PolyMeaning R H} (hs : P.Sound V) (hkey : 32 ≤ key.length) (hbuf : buf.length = 16)
    (pieces : List Bytes) : polyTag P key buf pieces = some (Poly1305.tag key pieces.flatten) := by
  have hr := (hs.setup key hkey).1
  obtain ⟨st, hrun, ht⟩ := polyUpdates_took hs hr (polyInit_took hs hbuf key) pieces
  rw [List.nil_append] at ht
  rw [polyTag, hrun, Option.bind_eq_bind, Option.bind_some, polyFinal_tag hs hkey ht]

/-- Both sizes of limbs give the tag of the text, however it is cut, and no sum, product or conversion has an error. -/
theorem poly1305_exact (hkey : key.length = 32) (hbuf : buf.length = 16) (pieces : List Bytes) :
    polyTag radix44 key buf pieces = some (Poly1305.tag key pieces.flatten) ∧
      polyTag radix26 key buf pieces = some (Poly1305.tag key pieces.flatten) :=
  ⟨polyTag_eq radix44_sound hkey.ge hbuf pieces, polyTag_eq radix26_sound hkey.ge hbuf pieces⟩

theorem poly1305_exact_sample :
    polyTag radix44 (List.replicate 32 7) (List.replicate 16 0) [[1, 2], [3]] =
      some (Poly1305.tag (List.replicate 32 7) [1, 2, 3]) ∧
    polyTag radix26 (List.replicate 32 7) (List.replicate 16 0) [[1, 2], [3]] =
      some (Poly1305.tag (List.replicate 32 7) [1, 2, 3]) :=
  poly1305_exact (by decide) (by decide) [[1, 2], [3]]

end Qanat
