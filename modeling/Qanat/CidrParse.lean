import Qanat.CidrNth
import Qanat.StoreInet

namespace Qanat

/-- The network of `qn_cidr_parse` around an address; the bits of the others are cleared. -/
def cidrNet (a : Addr) (bits : Nat) : Option Prefix :=
  match a with
  | .v4 x =>
    if 32 < bits then none
    else
      let out : Prefix := ⟨.v4 (x &&& maskV4 bits), bits, 0⟩
      some { out with count := prefixHosts out }
  | .v6 b =>
    let out : Prefix := ⟨.v6 (maskV6 b bits), bits, 0⟩
    some { out with count := prefixHosts out }

/-- The bits behind the slash of a prefix, `255` where there is no slash. -/
def cidrBits (s : Bytes) : Option Nat :=
  match s.dropWhile (· ≠ chSlash) with
  | [] => some 255
  | _ :: rest =>
    if !(rest.head?.any Decimal.isDigit) then none
    else
      let (v, tail) := Decimal.strtol rest
      if tail ≠ [] ∨ v < 0 ∨ 128 < v then none else some v.toNat

/-- `qn_cidr_parse`. -/
def cidrParse (inet : InetText) (s : Bytes) : Option Prefix :=
  if 128 ≤ s.length ∨ s = [] then none
  else do
    let bits ← cidrBits s
    let a ← storeAddrParse inet (s.takeWhile (· ≠ chSlash))
    cidrNet a (if bits = 255 then a.width else bits)

section Net

/-- The networks that an address lies in. -/
structure NetOf (a : Addr) (p : Prefix) : Prop where
  canon : p.Canon
  family : p.net.isV6 = a.isV6
  lo_le : p.lo ≤ a.place
  lt_end : a.place < p.lo + p.span

variable {a : Addr} {p : Prefix} {bits : Nat}

theorem NetOf.bits_le (h : NetOf a p) : p.bits ≤ a.width := by
  have hbits := h.canon.bits
  rw [Addr.width_eq, h.family, ← Addr.width_eq] at hbits
  exact hbits

theorem NetOf.unique {q : Prefix} (hp : NetOf a p) (hq : NetOf a q) (h : p.bits = q.bits) : p = q := by
  have hwidth : p.net.width = q.net.width := by rw [Addr.width_eq, Addr.width_eq, hp.family, hq.family]
  have hexp : p.net.width - p.bits = q.net.width - q.bits := by rw [hwidth, h]
  have hspan : p.span = 2 ^ (q.net.width - q.bits) := by
    unfold Prefix.span
    rw [hexp]
  have hple := hp.lo_le
  have hplt := hp.lt_end
  have hpal : 2 ^ (q.net.width - q.bits) ∣ p.lo := by
    rw [← hexp]
    exact hp.canon.aligned
  rw [hspan] at hplt
  have hpd := (Block.div_eq_iff hpal).mpr ⟨hple, hplt⟩
  have hqd := (Block.div_eq_iff hq.canon.aligned).mpr ⟨hq.lo_le, hq.lt_end⟩
  have hlo : p.lo = q.lo := by
    rw [← Nat.div_mul_cancel hpal, hpd, ← hqd]
    exact Nat.div_mul_cancel hq.canon.aligned
  refine hp.canon.eq_of_cell hq.canon ?_
  unfold Prefix.Canon.cell
  congr 1

theorem netOf_cidrNet (hbits : bits ≤ a.width) : ∃ p, cidrNet a bits = some p ∧ p.bits = bits ∧ NetOf a p := by
  cases a with
  | v4 x =>
    have hmask := maskV4_toNat x hbits
    rw [Block.and_highMask x.toNat_lt] at hmask
    have haligned : 2 ^ (32 - bits) ∣ (x &&& maskV4 bits).toNat := ⟨_, hmask.trans (Nat.mul_comm _ _)⟩
    obtain ⟨hle, hlt⟩ := (masked_eq_iff x _ hbits haligned).mp rfl
    refine ⟨_, if_neg (by simpa [Addr.width] using hbits), rfl, ⟨hbits, haligned, rfl⟩, rfl, hle, hlt⟩
  | v6 b =>
    have hmask := v6Nat_maskV6 b hbits
    have hpos : 0 < 2 ^ (128 - bits) := Nat.pow_pos (by decide)
    have hdvd : 2 ^ (128 - bits) ∣ 2 ^ 128 + v6Nat (maskV6 b bits) :=
      Nat.dvd_add (Nat.pow_dvd_pow 2 (Nat.sub_le 128 bits)) ⟨_, hmask.trans (Nat.mul_comm _ _)⟩
    refine ⟨_, rfl, rfl, ⟨hbits, hdvd, rfl⟩, rfl, ?_, ?_⟩
    · have := Nat.div_mul_le_self (v6Nat b) (2 ^ (128 - bits))
      show 2 ^ 128 + v6Nat (maskV6 b bits) ≤ 2 ^ 128 + v6Nat b
      omega
    · have := Nat.lt_div_mul_add hpos (a := v6Nat b)
      show 2 ^ 128 + v6Nat b < 2 ^ 128 + v6Nat (maskV6 b bits) + 2 ^ (128 - bits)
      omega

/-- The network around an address is the only one of its size that holds the address. -/
theorem cidrNet_iff (hbits : bits ≤ 128) : cidrNet a bits = some p ↔ p.bits = bits ∧ NetOf a p := by
  constructor
  · intro h
    have hwidth : bits ≤ a.width := by
      cases a with
      | v4 x =>
        by_contra hlt
        have hnone : cidrNet (.v4 x) bits = none := if_pos (Nat.lt_of_not_le hlt)
        rw [hnone] at h
        cases h
      | v6 b => exact hbits
    obtain ⟨q, hq, hbitsq, hnet⟩ := netOf_cidrNet hwidth
    obtain rfl := Option.some.inj (h.symm.trans hq)
    exact ⟨hbitsq, hnet⟩
  · rintro ⟨rfl, hnet⟩
    obtain ⟨q, hq, hbitsq, hnetq⟩ := netOf_cidrNet hnet.bits_le
    rw [hq, hnetq.unique hnet hbitsq]

end Net

section Text

variable {inet : InetText} {s : Bytes} {p : Prefix}

/-- A text that stands for a prefix: an address alone, or an address and behind a slash how many of its bits are the
network's, in fewer than 128 bytes. -/
def PrefixText (inet : InetText) (s : Bytes) (p : Prefix) : Prop :=
  s.length < 128 ∧ ∃ a, NetOf a p ∧
    ((chSlash ∉ s ∧ storeAddrParse inet s = some a ∧ p.bits = a.width) ∨
      ∃ host ds, s = host ++ chSlash :: ds ∧ chSlash ∉ host ∧ storeAddrParse inet host = some a ∧
        ds ≠ [] ∧ (∀ c ∈ ds, Decimal.isDigit c = true) ∧ Decimal.value ds = p.bits)

theorem PrefixText.canon (h : PrefixText inet s p) : p.Canon := by
  obtain ⟨-, a, hnet, -⟩ := h
  exact hnet.canon

theorem storeAddrParse_ne_nil {a : Addr} (h : storeAddrParse inet s = some a) : s ≠ [] := by
  rintro rfl
  unfold storeAddrParse at h
  rw [if_pos rfl] at h
  cases h

theorem cut_slash {host ds : Bytes} (h : chSlash ∉ host) :
    (host ++ chSlash :: ds).takeWhile (· ≠ chSlash) = host ∧
      (host ++ chSlash :: ds).dropWhile (· ≠ chSlash) = chSlash :: ds := by
  have hall : ∀ c ∈ host, decide (c ≠ chSlash) = true := by
    intro c hc
    rw [decide_eq_true_eq]
    rintro rfl
    exact h hc
  constructor
  · rw [List.takeWhile_append_of_pos hall, List.takeWhile_cons_of_neg (by simp), List.append_nil]
  · rw [List.dropWhile_append_of_pos hall, List.dropWhile_cons_of_neg (by simp)]

theorem cidrBits_plain (h : chSlash ∉ s) : cidrBits s = some 255 ∧ s.takeWhile (· ≠ chSlash) = s := by
  have hall : ∀ c ∈ s, decide (c ≠ chSlash) = true := by
    intro c hc
    rw [decide_eq_true_eq]
    rintro rfl
    exact h hc
  have hdrop : s.dropWhile (· ≠ chSlash) = [] := List.dropWhile_eq_nil_iff.mpr hall
  refine ⟨?_, List.takeWhile_eq_self_iff.mpr hall⟩
  unfold cidrBits
  rw [hdrop]

/-- The bits behind a slash are all digits, and at most 128. -/
theorem cidrBits_slash {host ds : Bytes} (h : chSlash ∉ host) {bits : Nat} :
    cidrBits (host ++ chSlash :: ds) = some bits ↔
      ds ≠ [] ∧ (∀ c ∈ ds, Decimal.isDigit c = true) ∧ Decimal.value ds = bits ∧ bits ≤ 128 := by
  unfold cidrBits
  rw [(cut_slash h).2]
  dsimp only
  cases ds with
  | nil => simp
  | cons c t =>
    by_cases hc : Decimal.isDigit c = true
    · rw [if_neg (by simp [hc]), Decimal.strtol_digit hc]
      dsimp only
      by_cases hall : ∀ d ∈ c :: t, Decimal.isDigit d = true
      · rw [List.takeWhile_eq_self_iff.mpr hall, List.dropWhile_eq_nil_iff.mpr hall]
        split
        next hbad =>
          constructor
          · intro hno
            cases hno
          · rintro ⟨-, -, rfl, hle⟩
            simp only [ne_eq, not_true_eq_false, false_or] at hbad
            omega
        next hok =>
          have hval : (min (2 ^ 63 - 1) (Decimal.value (c :: t) : Int)).toNat = Decimal.value (c :: t) := by omega
          rw [hval, Option.some_inj]
          constructor
          · rintro rfl
            exact ⟨List.cons_ne_nil _ _, hall, rfl, by omega⟩
          · rintro ⟨-, -, hv, -⟩
            exact hv
      · rw [if_pos (.inl fun hnil => hall (List.dropWhile_eq_nil_iff.mp hnil))]
        constructor
        · intro hno
          cases hno
        · rintro ⟨-, hd, -⟩
          exact absurd hd hall
    · rw [if_pos (by simp [hc])]
      constructor
      · intro hno
        cases hno
      · rintro ⟨-, hd, -⟩
        exact absurd (hd c List.mem_cons_self) hc

/-- `qn_cidr_parse` reads the texts of prefixes, and no others. -/
theorem cidrParse_iff : cidrParse inet s = some p ↔ PrefixText inet s p := by
  by_cases hshort : 128 ≤ s.length ∨ s = []
  · have hnone : cidrParse inet s = none := if_pos hshort
    rw [hnone]
    constructor
    · intro hno
      cases hno
    · rintro ⟨hlen, a, -, ⟨-, haddr, -⟩ | ⟨host, ds, rfl, -⟩⟩
      · exact hshort.elim (fun h => absurd hlen (Nat.not_lt.mpr h)) fun h => absurd h (storeAddrParse_ne_nil haddr)
      · exact hshort.elim (fun h => absurd hlen (Nat.not_lt.mpr h)) fun h => by simp at h
  · have hlen : s.length < 128 := Nat.not_le.mp fun h => hshort (.inl h)
    unfold cidrParse
    rw [if_neg hshort]
    by_cases hslash : chSlash ∈ s
    · obtain ⟨host, ds, rfl, hhost⟩ := List.eq_append_cons_of_mem hslash
      rw [(cut_slash hhost).1]
      constructor
      · intro h
        obtain ⟨bits, hbits, h⟩ := Option.bind_eq_some_iff.mp h
        obtain ⟨a, haddr, h⟩ := Option.bind_eq_some_iff.mp h
        obtain ⟨hne, hall, hval, hle⟩ := (cidrBits_slash hhost).mp hbits
        rw [if_neg (by omega)] at h
        obtain ⟨hpbits, hnet⟩ := (cidrNet_iff hle).mp h
        exact ⟨hlen, a, hnet, .inr ⟨host, ds, rfl, hhost, haddr, hne, hall, hval.trans hpbits.symm⟩⟩
      · rintro ⟨-, a, hnet, ⟨hno, -, -⟩ | ⟨host', ds', heq, hhost', haddr, hne, hall, hval⟩⟩
        · exact absurd hslash hno
        · have hcut := @cut_slash host ds hhost
          rw [heq, (cut_slash hhost').1, (cut_slash hhost').2] at hcut
          obtain ⟨rfl, hds⟩ := hcut
          obtain rfl := List.tail_eq_of_cons_eq hds
          have hle : p.bits ≤ 128 := by
            have := hnet.bits_le
            rw [Addr.width_eq] at this
            split at this <;> omega
          rw [(cidrBits_slash hhost).mpr ⟨hne, hall, hval, hle⟩]
          show (storeAddrParse inet host').bind _ = _
          rw [haddr]
          show cidrNet a (if p.bits = 255 then a.width else p.bits) = some p
          rw [if_neg (by omega), cidrNet_iff hle]
          exact ⟨rfl, hnet⟩
    · obtain ⟨hbits, htake⟩ := cidrBits_plain hslash
      rw [hbits, htake]
      have hwidth : ∀ a : Addr, a.width ≤ 128 := by
        intro a
        rw [Addr.width_eq]
        split <;> omega
      constructor
      · intro h
        obtain ⟨bits, hbits, h⟩ := Option.bind_eq_some_iff.mp h
        obtain ⟨a, haddr, h⟩ := Option.bind_eq_some_iff.mp h
        rw [if_pos (Option.some.inj hbits).symm] at h
        obtain ⟨hpbits, hnet⟩ := (cidrNet_iff (hwidth a)).mp h
        exact ⟨hlen, a, hnet, .inl ⟨hslash, haddr, hpbits⟩⟩
      · rintro ⟨-, a, hnet, ⟨-, haddr, hpbits⟩ | ⟨host, ds, rfl, -⟩⟩
        · show (storeAddrParse inet s).bind _ = _
          rw [haddr]
          exact (cidrNet_iff (hwidth a)).mpr ⟨hpbits, hnet⟩
        · simp at hslash

end Text

end Qanat
