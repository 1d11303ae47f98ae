import Qanat.General.Json
import Qanat.StoreTrip

namespace Qanat

section Quad

def readOctet (t : Bytes) : Option Nat :=
  (List.range 256).find? fun v => octetStr v = t

/-- Four octets in decimal without leading zeros. -/
def readQuad (t : Bytes) : Option UInt32 :=
  match t.splitOn chDot with
  | [o₃, o₂, o₁, o₀] => do
    let v₃ ← readOctet o₃
    let v₂ ← readOctet o₂
    let v₁ ← readOctet o₁
    let v₀ ← readOctet o₀
    some (UInt32.ofNat (v₃ * 2 ^ 24 + v₂ * 2 ^ 16 + v₁ * 2 ^ 8 + v₀))
  | _ => none

theorem value_octetStr (v : Fin 256) : Decimal.value (octetStr v) = v := by
  revert v
  decide +kernel

theorem readOctet_octetStr (a : UInt32) : readOctet (octetStr (a &&& 0xFF).toNat) = some (a &&& 0xFF).toNat := by
  have hlt := octet_lt a
  unfold readOctet
  cases hf : (List.range 256).find? fun v => decide (octetStr v = octetStr (a &&& 0xFF).toNat) with
  | none =>
    have := List.find?_eq_none.mp hf _ (List.mem_range.mpr hlt)
    simp at this
  | some v =>
    have hv : octetStr v = octetStr (a &&& 0xFF).toNat := by simpa using List.find?_some hf
    have hv256 := List.mem_range.mp (List.mem_of_find?_eq_some hf)
    have h₁ := value_octetStr ⟨v, hv256⟩
    have h₂ := value_octetStr ⟨_, hlt⟩
    dsimp only at h₁ h₂
    rw [← h₁, hv, h₂]

theorem splitOn_ipv4Str (a : UInt32) :
    (ipv4Str a).splitOn chDot =
      [octetStr (a >>> 24 &&& 0xFF).toNat, octetStr (a >>> 16 &&& 0xFF).toNat, octetStr (a >>> 8 &&& 0xFF).toNat,
        octetStr (a &&& 0xFF).toNat] := by
  have hnodot : ∀ x : UInt32, chDot ∉ octetStr (x &&& 0xFF).toNat := by
    intro x h
    exact absurd ((octetStr_byte x).2.2 _ h) (by decide)
  have hjoin : ipv4Str a = [chDot].intercalate [octetStr (a >>> 24 &&& 0xFF).toNat, octetStr (a >>> 16 &&& 0xFF).toNat,
      octetStr (a >>> 8 &&& 0xFF).toNat, octetStr (a &&& 0xFF).toNat] := by
    simp [ipv4Str, List.intercalate, List.intersperse]
  rw [hjoin, List.splitOn_intercalate chDot ?_ (List.cons_ne_nil _ _)]
  simp only [List.forall_mem_cons, List.not_mem_nil, IsEmpty.forall_iff, implies_true, and_true]
  exact ⟨hnodot _, hnodot _, hnodot _, hnodot _⟩

theorem octets_toNat (a : UInt32) :
    (a >>> 24 &&& 0xFF).toNat * 2 ^ 24 + (a >>> 16 &&& 0xFF).toNat * 2 ^ 16 + (a >>> 8 &&& 0xFF).toNat * 2 ^ 8 +
      (a &&& 0xFF).toNat = a.toNat := by
  have hand : ∀ n : Nat, n &&& 255 = n % 256 := fun n => Nat.and_two_pow_sub_one_eq_mod n 8
  have hlt := a.toNat_lt
  simp [UInt32.toNat_and, UInt32.toNat_shiftRight, Nat.shiftRight_eq_div_pow, hand]
  omega

theorem readQuad_ipv4Str (a : UInt32) : readQuad (ipv4Str a) = some a := by
  unfold readQuad
  rw [splitOn_ipv4Str]
  simp only [readOctet_octetStr, Option.bind_eq_bind, Option.bind_some, octets_toNat]
  rw [UInt32.ofNat_toNat]

end Quad

section Groups

def hexChar (v : Nat) : UInt8 :=
  Json.hexDigit v

def hexValue (c : UInt8) : Nat :=
  if c.toNat < 58 then c.toNat - 48 else c.toNat - 87

/-- Eight groups of four hexadecimal digits. -/
def groupsStr (b : Vector UInt8 16) : Bytes :=
  List.ofFn fun k : Fin 39 =>
    if k.val % 5 = 4 then 58
    else
      let v := (b.get ⟨2 * (k / 5) + k % 5 / 2, by omega⟩).toNat
      hexChar (if k.val % 5 % 2 = 0 then v / 16 else v % 16)

def groupsOf (t : Bytes) : Vector UInt8 16 :=
  Vector.ofFn fun i =>
    UInt8.ofNat (16 * hexValue (t.getD (i / 2 * 5 + i % 2 * 2) 0) + hexValue (t.getD (i / 2 * 5 + i % 2 * 2 + 1) 0))

def readGroups (t : Bytes) : Option (Vector UInt8 16) :=
  if groupsStr (groupsOf t) = t then some (groupsOf t) else none

theorem hexValue_hexChar (v : Fin 16) : hexValue (hexChar v) = v ∧ isInetChar (hexChar v) = true := by
  revert v
  decide

theorem getD_groupsStr (b : Vector UInt8 16) (k : Fin 39) (h : k.val % 5 ≠ 4) :
    (groupsStr b).getD k 0 =
      hexChar (if k.val % 5 % 2 = 0 then (b.get ⟨2 * (k / 5) + k % 5 / 2, by omega⟩).toNat / 16
        else (b.get ⟨2 * (k / 5) + k % 5 / 2, by omega⟩).toNat % 16) := by
  rw [groupsStr, List.getD_eq_getElem?_getD, List.getElem?_ofFn, dif_pos k.isLt, Option.getD_some, if_neg h]

theorem groupsOf_groupsStr (b : Vector UInt8 16) : groupsOf (groupsStr b) = b := by
  refine Vector.ext fun i hi => ?_
  have hlt := (b.get ⟨i, hi⟩).toNat_lt
  have hidx : 2 * ((i / 2 * 5 + i % 2 * 2) / 5) + (i / 2 * 5 + i % 2 * 2) % 5 / 2 = i := by omega
  have hidx' : 2 * ((i / 2 * 5 + i % 2 * 2 + 1) / 5) + (i / 2 * 5 + i % 2 * 2 + 1) % 5 / 2 = i := by omega
  have hhigh := getD_groupsStr b ⟨i / 2 * 5 + i % 2 * 2, by omega⟩ (by dsimp only; omega)
  have hlow := getD_groupsStr b ⟨i / 2 * 5 + i % 2 * 2 + 1, by omega⟩ (by dsimp only; omega)
  dsimp only at hhigh hlow
  rw [if_pos (by omega)] at hhigh
  rw [if_neg (by omega)] at hlow
  simp only [hidx] at hhigh
  simp only [hidx'] at hlow
  rw [groupsOf, Vector.getElem_ofFn, hhigh, hlow, (hexValue_hexChar ⟨(b.get ⟨i, hi⟩).toNat / 16, by omega⟩).1,
    (hexValue_hexChar ⟨(b.get ⟨i, hi⟩).toNat % 16, by omega⟩).1]
  dsimp only
  rw [Nat.div_add_mod, UInt8.ofNat_toNat]
  rfl

theorem mem_groupsStr {b : Vector UInt8 16} {c : UInt8} (h : c ∈ groupsStr b) : c = 58 ∨ ∃ v : Fin 16, c = hexChar v := by
  obtain ⟨k, rfl⟩ := List.mem_ofFn.mp h
  dsimp only
  split
  next => exact .inl rfl
  next =>
    have hlt := (b.get ⟨2 * (k / 5) + k % 5 / 2, by omega⟩).toNat_lt
    split
    next => exact .inr ⟨⟨_, Nat.div_lt_of_lt_mul hlt⟩, rfl⟩
    next => exact .inr ⟨⟨_, Nat.mod_lt _ (by decide)⟩, rfl⟩

/-- A C library that writes an IPv6 address without shortening it. -/
def plainInet : InetText :=
  ⟨readQuad, readGroups, groupsStr⟩

theorem plainInet_sound : plainInet.Sound where
  pton4_ipv4Str := readQuad_ipv4Str
  pton4_ntop6 b := by
    have hnodot : chDot ∉ groupsStr b := by
      have hne : ∀ v : Fin 16, chDot ≠ hexChar v := by decide
      intro h
      obtain h | ⟨v, h⟩ := mem_groupsStr h
      · exact absurd h (by decide)
      · exact hne v h
    have hone : (groupsStr b).splitOn chDot = [groupsStr b] := by
      have hjoin : [chDot].intercalate [groupsStr b] = groupsStr b := by simp [List.intercalate]
      rw [← hjoin, List.splitOn_intercalate chDot (by simpa using hnodot) (List.cons_ne_nil _ _), hjoin]
    show readQuad (groupsStr b) = none
    unfold readQuad
    rw [hone]
  pton6_ntop6 b := by
    show readGroups (groupsStr b) = some b
    unfold readGroups
    rw [groupsOf_groupsStr, if_pos rfl]
  chars_ntop6 b c hc := by
    obtain rfl | ⟨v, rfl⟩ := mem_groupsStr hc
    · decide
    · exact (hexValue_hexChar v).2
  ntop6_ne_nil b h := by
    have hlen : (groupsStr b).length ≠ 0 := by
      rw [groupsStr, List.length_ofFn]
      decide
    exact hlen (congrArg List.length h)
  length_ntop6 b := by
    show (groupsStr b).length < 46
    rw [groupsStr, List.length_ofFn]
    decide

end Groups

end Qanat
