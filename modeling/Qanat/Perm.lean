import Qanat.General.Feistel
import Qanat.General.FirstReturn
import Mathlib.Data.Fintype.EquivFin

namespace Qanat

/-- The finalizer shared by perm.c and bandit.c, on wrapping 64-bit words. -/
def mix64 (z : UInt64) : UInt64 :=
  let z := z + 0x9E3779B97F4A7C15
  let z := (z ^^^ (z >>> 30)) * 0xBF58476D1CE4E5B9
  let z := (z ^^^ (z >>> 27)) * 0x94D049BB133111EB
  z ^^^ (z >>> 31)

def seedDerive (master domain : UInt64) : UInt64 :=
  mix64 (master ^^^ mix64 (domain + 0xD1B54A32D192ED03))

structure Perm where
  domain : Nat
  mask : Nat
  half : Nat
  hmask : Nat
  key : List UInt64

/-- The width loop of `qn_perm_init`: two more bits while the range is too narrow. -/
def permBits (domain : Nat) : Nat → Nat → Nat
  | 0, bits => bits
  | fuel + 1, bits =>
    if bits < 64 ∧ 1 <<< bits < domain then permBits domain fuel (bits + 2) else bits

def permKeys : Nat → UInt64 → List UInt64
  | 0, _ => []
  | n + 1, seed =>
    let seed := mix64 (seed + 0xA24BAED4963EE407)
    seed :: permKeys n seed

/-- `qn_perm_init`; a domain below two keeps the zeroed record. -/
def permInit (domain : Nat) (seed : UInt64) : Perm :=
  if domain < 2 then ⟨domain, 0, 0, 0, [0, 0, 0, 0]⟩
  else
    let bits := permBits domain 31 2
    { domain := domain
      mask := if 64 ≤ bits then 2 ^ 64 - 1 else 1 <<< bits - 1
      half := bits / 2
      hmask := if 32 ≤ bits / 2 then 0xFFFFFFFF else 1 <<< (bits / 2) - 1
      key := permKeys 4 seed }

def permMix (p : Perm) (key : UInt64) (r : Nat) : Nat :=
  (mix64 ((UInt64.ofNat r <<< 24) ^^^ key)).toNat &&& p.hmask

def permNetwork (p : Perm) (x : Nat) : Nat × Nat :=
  Feistel.network (· ^^^ ·) (permMix p) p.key ((x >>> p.half) &&& p.hmask, x &&& p.hmask)

/-- One pass of the four rounds in `qn_perm_apply`. -/
def permRounds (p : Perm) (x : Nat) : Nat :=
  (((permNetwork p x).1 <<< p.half) ||| (permNetwork p x).2) &&& p.mask

def permWalk (p : Perm) (fuel x : Nat) : Option Nat :=
  FirstReturn.walk (permRounds p) p.domain fuel x

/-- `qn_perm_apply`. The unbounded loop gets one round for each point of the masked range;
`permWalk_exists` shows that it always stops within them. -/
def permApply (p : Perm) (i : Nat) : Nat :=
  if p.domain < 2 then 0
  else (permWalk p (p.mask + 1) (if p.domain ≤ i then i % p.domain else i)).getD 0

structure Perm.Shaped (p : Perm) : Prop where
  mask_eq : p.mask = 2 ^ (2 * p.half) - 1
  hmask_eq : p.hmask = 2 ^ p.half - 1
  domain_le : p.domain ≤ 2 ^ (2 * p.half)

theorem permBits_spec {domain : Nat} (hd : domain ≤ 2 ^ 64) (fuel k : Nat) (hk : k + 1 + fuel = 32) :
    ∃ h, permBits domain fuel (2 * (k + 1)) = 2 * h ∧ h ≤ 32 ∧ domain ≤ 2 ^ (2 * h) := by
  induction fuel generalizing k with
  | zero => exact ⟨k + 1, rfl, by omega, by rw [show 2 * (k + 1) = 64 by omega]; exact hd⟩
  | succ fuel ih =>
    unfold permBits
    split
    next => exact ih (k + 1) (by omega)
    next hstop =>
      have : domain ≤ 2 ^ (2 * (k + 1)) := by
        rw [Nat.one_shiftLeft] at hstop
        omega
      exact ⟨k + 1, rfl, by omega, this⟩

theorem permInit_domain (domain : Nat) (seed : UInt64) : (permInit domain seed).domain = domain := by
  unfold permInit
  split <;> rfl

theorem permInit_shaped {domain : Nat} (seed : UInt64) (hd : 2 ≤ domain) (hle : domain ≤ 2 ^ 64) :
    (permInit domain seed).Shaped := by
  obtain ⟨h, hbits, hh, hdom⟩ := permBits_spec hle 31 0 rfl
  have hdiv : 2 * h / 2 = h := by omega
  unfold permInit
  rw [if_neg (by omega)]
  simp only [hbits, hdiv]
  refine ⟨?_, ?_, hdom⟩
  · change (if 64 ≤ 2 * h then 2 ^ 64 - 1 else 1 <<< (2 * h) - 1) = 2 ^ (2 * h) - 1
    split
    next => rw [show 2 * h = 64 by omega]
    next => rw [Nat.one_shiftLeft]
  · change (if 32 ≤ h then 0xFFFFFFFF else 1 <<< h - 1) = 2 ^ h - 1
    split
    next => rw [show h = 32 by omega]; rfl
    next => rw [Nat.one_shiftLeft]

section Shaped

variable {p : Perm} (hp : p.Shaped)
include hp

theorem permMix_lt (k : UInt64) (r : Nat) : permMix p k r < 2 ^ p.half := by
  rw [permMix, hp.hmask_eq, Nat.and_two_pow_sub_one_eq_mod]
  exact Nat.mod_lt _ (Nat.two_pow_pos _)

theorem permNetwork_lt (x : Nat) :
    (permNetwork p x).1 < 2 ^ p.half ∧ (permNetwork p x).2 < 2 ^ p.half := by
  have low (z : Nat) : z &&& p.hmask < 2 ^ p.half := by
    rw [hp.hmask_eq, Nat.and_two_pow_sub_one_eq_mod]
    exact Nat.mod_lt _ (Nat.two_pow_pos _)
  exact Feistel.network_mem (s := {a | a < 2 ^ p.half})
    (fun a ha k b _ => Nat.xor_lt_two_pow ha (permMix_lt hp k b)) p.key (low _) (low _)

theorem permRounds_eq (x : Nat) :
    permRounds p x = (permNetwork p x).1 <<< p.half ||| (permNetwork p x).2 := by
  have hh := permNetwork_lt hp x
  rw [permRounds, hp.mask_eq, Nat.and_two_pow_sub_one_eq_mod]
  exact Nat.mod_eq_of_lt (Feistel.join_lt hh.1 hh.2)

theorem permRounds_lt (x : Nat) : permRounds p x < 2 ^ (2 * p.half) := by
  rw [permRounds, hp.mask_eq, Nat.and_two_pow_sub_one_eq_mod]
  exact Nat.mod_lt _ (Nat.two_pow_pos _)

/-- The rounds permute the masked range. -/
theorem permRounds_injective {x y : Nat} (hx : x < 2 ^ (2 * p.half)) (hy : y < 2 ^ (2 * p.half))
    (h : permRounds p x = permRounds p y) : x = y := by
  have high {z : Nat} (hz : z < 2 ^ (2 * p.half)) : z >>> p.half &&& p.hmask = z >>> p.half := by
    rw [hp.hmask_eq, Nat.and_two_pow_sub_one_eq_mod, Nat.shiftRight_eq_div_pow]
    apply Nat.mod_eq_of_lt
    rw [Nat.div_lt_iff_lt_mul (Nat.two_pow_pos _), ← Nat.pow_add, ← Nat.two_mul]
    exact hz
  rw [permRounds_eq hp, permRounds_eq hp] at h
  have hleft := congrArg (· >>> p.half) h
  have hright := congrArg (· % 2 ^ p.half) h
  simp only [Feistel.join_div (permNetwork_lt hp _).2] at hleft
  simp only [Feistel.join_mod (permNetwork_lt hp _).2] at hright
  have hpair := Feistel.network_injective (fun a b => by rw [Nat.xor_assoc, Nat.xor_self, Nat.xor_zero]) p.key
    (Prod.ext hleft hright)
  obtain ⟨hhi, hlo⟩ := Prod.mk.inj hpair
  rw [high hx, high hy] at hhi
  rw [hp.hmask_eq, Nat.and_two_pow_sub_one_eq_mod, Nat.and_two_pow_sub_one_eq_mod] at hlo
  rw [← Feistel.split_join (h := p.half) x, ← Feistel.split_join (h := p.half) y, hhi, hlo]

/-- The cycle walk always comes back into the domain. -/
theorem permWalk_exists {x : Nat} (hx : x < p.domain) :
    ∃ y, permWalk p (p.mask + 1) x = some y := by
  have hsize : p.mask + 1 = 2 ^ (2 * p.half) := by
    have := Nat.two_pow_pos (2 * p.half)
    rw [hp.mask_eq]; omega
  rw [hsize]
  exact FirstReturn.walk_exists (fun z _ => permRounds_lt hp z)
    (fun z hz w hw h => permRounds_injective hp hz hw h) hp.domain_le hx

theorem permWalk_injective {x y z : Nat} (hx : x < p.domain) (hy : y < p.domain)
    (h₁ : permWalk p (p.mask + 1) x = some z) (h₂ : permWalk p (p.mask + 1) y = some z) : x = y := by
  have hsize : p.mask + 1 = 2 ^ (2 * p.half) := by
    have := Nat.two_pow_pos (2 * p.half)
    rw [hp.mask_eq]; omega
  rw [hsize] at h₁ h₂
  exact FirstReturn.walk_injective (fun z _ => permRounds_lt hp z)
    (fun z hz w hw h => permRounds_injective hp hz hw h) hp.domain_le hx hy h₁ h₂

end Shaped

section Init

variable {domain : Nat} (seed : UInt64) (hle : domain ≤ 2 ^ 64)
include hle

theorem permApply_walk {i : Nat} (h2 : 2 ≤ domain) (hi : i < domain) :
    permWalk (permInit domain seed) ((permInit domain seed).mask + 1) i =
      some (permApply (permInit domain seed) i) := by
  have hdom := permInit_domain domain seed
  obtain ⟨y, hy⟩ := permWalk_exists (permInit_shaped seed h2 hle) (x := i) (by omega)
  rw [permApply, hdom, if_neg (by omega), if_neg (by omega), hy]
  rfl

theorem permApply_lt {i : Nat} (hi : i < domain) : permApply (permInit domain seed) i < domain := by
  by_cases h2 : 2 ≤ domain
  · obtain ⟨_, _, _, hlt, _⟩ := FirstReturn.walk_eq_some (permApply_walk seed hle h2 hi)
    rwa [permInit_domain] at hlt
  · rw [permApply, permInit_domain, if_pos (by omega)]
    omega

theorem permApply_injective {i j : Nat} (hi : i < domain) (hj : j < domain)
    (h : permApply (permInit domain seed) i = permApply (permInit domain seed) j) : i = j := by
  by_cases h2 : 2 ≤ domain
  · have hdom := permInit_domain domain seed
    have hwi := permApply_walk seed hle h2 hi
    rw [h] at hwi
    exact permWalk_injective (permInit_shaped seed h2 hle) (by omega) (by omega) hwi
      (permApply_walk seed hle h2 hj)
  · omega

theorem permApply_mapsTo : Set.MapsTo (permApply (permInit domain seed)) (Finset.range domain) (Finset.range domain) :=
  fun _ hi => Finset.mem_coe.mpr (Finset.mem_range.mpr (permApply_lt seed hle (by simpa using hi)))

theorem permApply_injOn : Set.InjOn (permApply (permInit domain seed)) (Finset.range domain) :=
  fun _ hi _ hj => permApply_injective seed hle (by simpa using hi) (by simpa using hj)

theorem permApply_surjOn : Set.SurjOn (permApply (permInit domain seed)) (Finset.range domain) (Finset.range domain) :=
  Finset.surjOn_of_injOn_of_card_le _ (permApply_mapsTo seed hle) (permApply_injOn seed hle) (Nat.le_refl _)

end Init

/-- `qn_perm_apply` walks to the first value in the domain, and permutes the domain. -/
theorem permApply_bijOn {n : Nat} (hpos : 0 < n) (hlt : n < 2 ^ 64) (seed : UInt64) :
    (∀ i, 2 ≤ n → ∃ r, permApply (permInit n seed) i = (permRounds (permInit n seed))^[r + 1] (i % n) ∧
      (permRounds (permInit n seed))^[r + 1] (i % n) < n ∧
      ∀ m < r, n ≤ (permRounds (permInit n seed))^[m + 1] (i % n)) ∧
    Set.BijOn (permApply (permInit n seed)) (Set.Iio n) (Set.Iio n) := by
  rw [← Finset.coe_range]
  refine ⟨?_, permApply_mapsTo seed hlt.le, permApply_injOn seed hlt.le, permApply_surjOn seed hlt.le⟩
  intro i h2
  have hmod := Nat.mod_lt i hpos
  have hsame : permApply (permInit n seed) i = permApply (permInit n seed) (i % n) := by
    have hstart : (if n ≤ i then i % n else i) = i % n := by
      split
      next => rfl
      next h => rw [Nat.mod_eq_of_lt (Nat.lt_of_not_le h)]
    unfold permApply
    rw [permInit_domain, hstart, if_neg (Nat.not_le_of_lt hmod)]
  obtain ⟨r, -, hr, hbelow, hbefore⟩ := FirstReturn.walk_eq_some (permApply_walk seed hlt.le h2 hmod)
  rw [permInit_domain] at hbelow hbefore
  exact ⟨r, hsame.trans hr.symm, hr ▸ hbelow, hbefore⟩

theorem permApply_bijOn_ten : Set.BijOn (permApply (permInit 10 7)) (Set.Iio 10) (Set.Iio 10) :=
  (permApply_bijOn (by decide) (by decide) 7).2

end Qanat
