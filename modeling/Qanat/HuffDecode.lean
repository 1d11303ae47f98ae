import Qanat.Huffman

namespace Qanat

open CanonicalCode

/-- Where `qn_huff_decode` stands after some symbols and the bits `w` of the next word. -/
def huffAt (cap : Nat) (syms w : List Nat) : HuffState :=
  { code := value w
    nbits := w.length
    out := (syms.map UInt8.ofNat).take cap
    len := syms.length
    truncated := decide (cap < syms.length)
    hasUpper := syms.any fun s => 0x41 ≤ s && s ≤ 0x5A }

section Step

variable {cap : Nat} {syms w : List Nat} {b : Nat}

theorem huffBit_inner (h : huffCode.Inner (w ++ [b])) :
    huffBit cap (huffAt cap syms w) b = some (huffAt cap syms (w ++ [b])) := by
  have hlen : (w ++ [b]).length = w.length + 1 := List.length_append
  have hle : w.length + 1 ≤ huffMaxLen := hlen ▸ h.length_le
  have hlast : huffFirstCode.getD (w.length + 1) 0 + huffCount.getD (w.length + 1) 0 ≤ value w * 2 + b := by
    have := h.last_le
    rw [hlen, value_snoc] at this
    exact this
  have heq : huffAt cap syms (w ++ [b]) =
      { huffAt cap syms w with code := value w * 2 + b, nbits := w.length + 1 } := by
    unfold huffAt
    rw [value_snoc, hlen]
  rw [heq]
  exact (if_neg (Nat.not_lt.mpr hle)).trans (if_pos (by dsimp only [huffAt]; omega))

theorem huffBit_word (h : huffCode.Word (w ++ [b])) :
    huffBit cap (huffAt cap syms w) b =
      huffEmit cap { huffAt cap syms w with code := value (w ++ [b]), nbits := w.length + 1 }
        (huffSymOf (w ++ [b])) := by
  have hlen : (w ++ [b]).length = w.length + 1 := List.length_append
  have hle : w.length + 1 ≤ huffMaxLen := hlen ▸ h.length_le
  have hfirst : huffFirstCode.getD (w.length + 1) 0 ≤ value w * 2 + b := by
    have := h.first_le
    rw [hlen, value_snoc] at this
    exact this
  have hlast : value w * 2 + b < huffFirstCode.getD (w.length + 1) 0 + huffCount.getD (w.length + 1) 0 := by
    have := h.lt_last
    rw [hlen, value_snoc] at this
    exact this
  rw [huffSymOf, hlen, value_snoc]
  exact (if_neg (Nat.not_lt.mpr hle)).trans (if_neg (by dsimp only [huffAt]; omega))

theorem huffEmit_at (code nbits sym : Nat) :
    huffEmit cap { huffAt cap syms w with code := code, nbits := nbits } sym =
      if sym = huffEos ∨ huffMaxOut ≤ syms.length then none else some (huffAt cap (syms ++ [sym]) []) := by
  unfold huffEmit
  by_cases hbad : sym = huffEos ∨ huffMaxOut ≤ syms.length
  · rw [if_pos hbad]
    exact if_pos hbad
  · rw [if_neg hbad]
    refine (if_neg hbad).trans ?_
    have hlenout : (huffAt cap syms w).out.length = min cap syms.length := by
      simp [huffAt]
    congr 1
    unfold huffAt at hlenout ⊢
    dsimp only at hlenout ⊢
    rw [hlenout, List.map_append, List.any_append, List.length_append]
    congr 1
    · by_cases hroom : syms.length < cap
      · rw [if_pos (by omega), List.take_of_length_le (by rw [List.length_map]; omega),
          List.take_of_length_le (by rw [List.length_append, List.length_map]; exact hroom)]
        rfl
      · rw [if_neg (by omega), List.take_append_of_le_length (by rw [List.length_map]; omega)]
    · rw [← Bool.decide_or]
      exact decide_eq_decide.mpr (by rw [List.length_singleton]; omega)
    · rw [List.any_cons, List.any_nil, Bool.or_false]

end Step

/-- Symbols a string may hold, and no more of them than there is room for. -/
def HuffLegal (syms : List Nat) : Prop :=
  huffEos ∉ syms ∧ syms.length ≤ huffMaxOut

instance (syms : List Nat) : Decidable (HuffLegal syms) :=
  inferInstanceAs (Decidable (_ ∧ _))

theorem huffLegal_snoc {syms : List Nat} {sym : Nat} :
    HuffLegal (syms ++ [sym]) ↔ HuffLegal syms ∧ ¬(sym = huffEos ∨ huffMaxOut ≤ syms.length) := by
  unfold HuffLegal
  rw [List.mem_append, List.mem_singleton, List.length_append, List.length_singleton, eq_comm]
  constructor
  · exact fun h => ⟨⟨fun hm => h.1 (.inl hm), by omega⟩, fun hbad => hbad.elim (fun he => h.1 (.inr he)) (by omega)⟩
  · exact fun h => ⟨fun hm => hm.elim h.1.1 fun he => h.2 (.inl he), by omega⟩

theorem foldlM_snoc {σ α : Type*} (f : σ → α → Option σ) (l : List α) (a : α) (s : σ) :
    (l ++ [a]).foldlM f s = (l.foldlM f s).bind fun t => f t a := by
  rw [List.foldlM_append]
  cases l.foldlM f s with
  | none => rfl
  | some t => exact bind_pure (f t a)

/-- After any bits, the decoder has taken the words in them; it fails at an end-of-string word, and when there are
too many. -/
theorem huffBits_run (cap : Nat) {l : List Nat} (hl : Binary l) :
    ∃ syms w, (∀ s ∈ syms, s ≤ huffEos) ∧ huffCode.Inner w ∧ l = syms.flatMap huffWord ++ w ∧
      l.foldlM (huffBit cap) (huffAt cap [] []) = if HuffLegal syms then some (huffAt cap syms w) else none := by
  induction l using List.reverseRecOn with
  | nil => exact ⟨[], [], fun _ h => absurd h List.not_mem_nil, huffCode.inner_nil, rfl, rfl⟩
  | append_singleton l b ih =>
    obtain ⟨hbin, hb⟩ := binary_snoc.mp hl
    obtain ⟨syms, w, hsyms, hw, heq, hrun⟩ := ih hbin
    rw [foldlM_snoc, hrun]
    rcases hw.snoc hb with hinner | hword
    · refine ⟨syms, w ++ [b], hsyms, hinner, by rw [heq, List.append_assoc], ?_⟩
      by_cases hlegal : HuffLegal syms
      · rw [if_pos hlegal, if_pos hlegal, Option.bind_some, huffBit_inner hinner]
      · rw [if_neg hlegal, if_neg hlegal]
        rfl
    · refine ⟨syms ++ [huffSymOf (w ++ [b])], [], ?_, huffCode.inner_nil, ?_, ?_⟩
      · exact List.forall_mem_append.mpr ⟨hsyms, List.forall_mem_singleton.mpr (huffSymOf_le hword)⟩
      · rw [heq, List.flatMap_append, List.flatMap_singleton, huffWord_huffSymOf hword, List.append_nil,
          List.append_assoc]
      · by_cases hlegal : HuffLegal syms
        · rw [if_pos hlegal, Option.bind_some, huffBit_word hword, huffEmit_at]
          by_cases hbad : huffSymOf (w ++ [b]) = huffEos ∨ huffMaxOut ≤ syms.length
          · rw [if_pos hbad, if_neg fun h => (huffLegal_snoc.mp h).2 hbad]
          · rw [if_neg hbad, if_pos (huffLegal_snoc.mpr ⟨hlegal, hbad⟩)]
        · rw [if_neg hlegal, if_neg fun h => hlegal (huffLegal_snoc.mp h).1]
          rfl

/-- The words in a row of bits, and what is left, are determined. -/
theorem huffWords_unique {syms syms' w w' : List Nat} (hs : ∀ s ∈ syms, s ≤ huffEos) (hw : huffCode.Inner w)
    (hs' : ∀ s ∈ syms', s ≤ huffEos) (hw' : huffCode.Inner w')
    (h : syms.flatMap huffWord ++ w = syms'.flatMap huffWord ++ w') : syms = syms' ∧ w = w' := by
  have hall : ∀ l : List Nat, (∀ s ∈ l, s ≤ huffEos) → ∀ x ∈ l.map huffWord, huffCode.Word x := by
    intro l hl x hx
    obtain ⟨s, hmem, rfl⟩ := List.mem_map.mp hx
    exact huffWord_word (hl s hmem)
  obtain ⟨hmap, rfl⟩ := Code.unique_split (hall syms hs) hw (hall syms' hs') hw' h
  have hback : ∀ l : List Nat, (∀ s ∈ l, s ≤ huffEos) → (l.map huffWord).map huffSymOf = l := by
    intro l hl
    rw [List.map_map]
    exact (List.map_congr_left fun s hmem => huffSymOf_huffWord (hl s hmem)).trans (List.map_id _)
  rw [← hback syms hs, hmap, hback syms' hs']
  exact ⟨rfl, rfl⟩

/-- Padding is the beginning of no word shorter than eight bits. -/
theorem inner_ones {k : Nat} (hk : k < 8) : huffCode.Inner (List.replicate k 1) := by
  have hlast : ∀ n < 8, huffCode.first n + huffCode.count n ≤ 2 ^ n - 1 := by decide
  refine ⟨binary_ones k, ?_, ?_⟩
  · rw [List.length_replicate]
    exact hk.le.trans (by decide)
  · rw [List.length_replicate, value_ones]
    exact hlast k hk

/-- The bits of a string. -/
def huffEncode (s : Bytes) : List Nat :=
  s.flatMap fun c => huffWord c.toNat

/-- Eight bits to a byte, the highest first. -/
def packBits : List Nat → Bytes
  | b₇ :: b₆ :: b₅ :: b₄ :: b₃ :: b₂ :: b₁ :: b₀ :: t =>
    UInt8.ofNat (value [b₇, b₆, b₅, b₄, b₃, b₂, b₁, b₀]) :: packBits t
  | _ => []

/-- The encoding of a string, padded with ones to a byte boundary. -/
def huffBytes (s : Bytes) : Bytes :=
  packBits (huffEncode s ++ List.replicate ((8 - (huffEncode s).length % 8) % 8) 1)

theorem byteBits_eq (c : UInt8) : byteBits c = bits 8 c.toNat := by
  simp [byteBits, bits, Nat.div_div_eq_div_mul]

theorem packBits_eight {w t : List Nat} (h : w.length = 8) :
    packBits (w ++ t) = UInt8.ofNat (value w) :: packBits t := by
  match w, h with
  | [_, _, _, _, _, _, _, _], _ => rfl

theorem packBits_byteBits (src : Bytes) : packBits (src.flatMap byteBits) = src := by
  induction src with
  | nil => rfl
  | cons c src ih =>
    have hc : c.toNat < 2 ^ 8 := c.toNat_lt
    rw [List.flatMap_cons, byteBits_eq, packBits_eight (length_bits 8 _), value_bits hc, ih]
    rw [UInt8.ofNat_toNat]

theorem byteBits_packBits {l : List Nat} (hl : Binary l) (h8 : l.length % 8 = 0) :
    (packBits l).flatMap byteBits = l := by
  induction hn : l.length / 8 generalizing l with
  | zero =>
    rw [List.length_eq_zero_iff.mp (show l.length = 0 by omega)]
    rfl
  | succ n ih =>
    have hsplit := (List.take_append_drop 8 l).symm
    have hlen : (l.take 8).length = 8 := by rw [List.length_take]; omega
    rw [hsplit] at hl
    obtain ⟨hhead, htail⟩ := binary_append.mp hl
    have hrest := ih htail (by rw [List.length_drop]; omega) (by rw [List.length_drop]; omega)
    have hval := value_lt hhead
    have hbits := bits_value hhead
    rw [hlen] at hval hbits
    rw [hsplit, packBits_eight hlen, List.flatMap_cons, hrest, byteBits_eq, UInt8.toNat_ofNat', Nat.mod_eq_of_lt hval,
      hbits]

theorem binary_huffEncode (s : Bytes) : Binary (huffEncode s) := by
  intro b hb
  obtain ⟨c, -, hmem⟩ := List.mem_flatMap.mp hb
  exact (huffWord_word (show c.toNat ≤ huffEos from Nat.le_of_lt c.toNat_lt)).binary b hmem

theorem huffBytes_bits (s : Bytes) : (huffBytes s).flatMap byteBits =
    huffEncode s ++ List.replicate ((8 - (huffEncode s).length % 8) % 8) 1 := by
  refine byteBits_packBits (binary_append.mpr ⟨binary_huffEncode s, binary_ones _⟩) ?_
  rw [List.length_append, List.length_replicate]
  omega

theorem length_flatMap_byteBits (src : Bytes) : (src.flatMap byteBits).length = 8 * src.length := by
  induction src with
  | nil => rfl
  | cons c src ih =>
    rw [List.flatMap_cons, List.length_append, ih, byteBits_eq, length_bits, List.length_cons]
    omega

/-- Bytes that hold a string and less than a byte of padding are its encoding. -/
theorem eq_huffBytes {s src : Bytes} {k : Nat} (hk : k < 8)
    (h : src.flatMap byteBits = huffEncode s ++ List.replicate k 1) : src = huffBytes s := by
  have hlen := length_flatMap_byteBits src
  rw [h, List.length_append, List.length_replicate] at hlen
  have hpad : k = (8 - (huffEncode s).length % 8) % 8 := by omega
  rw [huffBytes, ← hpad, ← h, packBits_byteBits]

theorem binary_byteBits (src : Bytes) : Binary (src.flatMap byteBits) := by
  intro b hb
  obtain ⟨c, -, hmem⟩ := List.mem_flatMap.mp hb
  rw [byteBits_eq] at hmem
  exact binary_bits 8 c.toNat b hmem

/-- The bytes for some symbols. -/
theorem huffEncode_map {syms : List Nat} (h : ∀ s ∈ syms, s < 256) :
    huffEncode (syms.map UInt8.ofNat) = syms.flatMap huffWord := by
  unfold huffEncode
  rw [List.flatMap_map]
  refine List.flatMap_congr fun s hs => ?_
  rw [UInt8.toNat_ofNat', Nat.mod_eq_of_lt (h s hs)]

/-- What the decoder makes of the bits of a string with something after it that begins no word. -/
theorem huffBits_string (cap : Nat) {s : Bytes} {w : List Nat} (hw : huffCode.Inner w) :
    (huffEncode s ++ w).foldlM (huffBit cap) (huffAt cap [] []) =
      if s.length ≤ huffMaxOut then some (huffAt cap (s.map UInt8.toNat) w) else none := by
  obtain ⟨syms, w', hsyms, hw', heq, hrun⟩ := huffBits_run cap (binary_append.mpr ⟨binary_huffEncode s, hw.binary⟩)
  have henc : huffEncode s = (s.map UInt8.toNat).flatMap huffWord := by
    rw [List.flatMap_map]
    rfl
  have hle : ∀ n ∈ s.map UInt8.toNat, n < 256 := by
    intro n hn
    obtain ⟨c, -, rfl⟩ := List.mem_map.mp hn
    exact c.toNat_lt
  rw [henc] at heq hrun ⊢
  obtain ⟨rfl, rfl⟩ := huffWords_unique (fun n hn => (hle n hn).le) hw hsyms hw' heq
  rw [hrun]
  refine if_congr ?_ rfl rfl
  unfold HuffLegal
  rw [List.length_map]
  exact and_iff_right fun hmem => absurd (hle _ hmem) (by decide)

theorem huffAt_nil (cap : Nat) : huffAt cap [] [] = ⟨0, 0, [], 0, false, false⟩ := by
  simp [huffAt, value]

theorem huffDecode_eq (src : Bytes) (cap : Nat) : huffDecode src cap =
    ((src.flatMap byteBits).foldlM (huffBit cap) (huffAt cap [] [])).bind fun s =>
      if 8 ≤ s.nbits ∨ (s.nbits ≠ 0 ∧ s.code ≠ 2 ^ s.nbits - 1) then none
      else some ⟨s.out, s.len, s.truncated, s.hasUpper⟩ := by
  rw [huffAt_nil, huffDecode]
  cases (src.flatMap byteBits).foldlM (huffBit cap) ⟨0, 0, [], 0, false, false⟩ <;> rfl

/-- The outcome after a whole string. -/
theorem huffAt_string (cap : Nat) (s : Bytes) (w : List Nat) :
    (huffAt cap (s.map UInt8.toNat) w).out = s.take cap ∧
    (huffAt cap (s.map UInt8.toNat) w).len = s.length ∧
    (huffAt cap (s.map UInt8.toNat) w).truncated = decide (cap < s.length) ∧
    (huffAt cap (s.map UInt8.toNat) w).hasUpper = s.any isUpper := by
  have hback : (s.map UInt8.toNat).map UInt8.ofNat = s := by
    rw [List.map_map]
    exact (List.map_congr_left fun c _ => UInt8.ofNat_toNat).trans (List.map_id s)
  refine ⟨congrArg (List.take cap) hback, List.length_map _, ?_, ?_⟩
  · show decide (cap < (s.map UInt8.toNat).length) = _
    rw [List.length_map]
  · exact List.any_map

/-- Padding of ones ends the string; anything else that is left over does not. -/
theorem huffEnd_iff {cap : Nat} {syms w : List Nat} (hw : Binary w) :
    ¬(8 ≤ (huffAt cap syms w).nbits ∨
      ((huffAt cap syms w).nbits ≠ 0 ∧ (huffAt cap syms w).code ≠ 2 ^ (huffAt cap syms w).nbits - 1)) ↔
      w.length < 8 ∧ w = List.replicate w.length 1 := by
  show ¬(8 ≤ w.length ∨ (w.length ≠ 0 ∧ value w ≠ 2 ^ w.length - 1)) ↔ _
  constructor
  · intro h
    have hval : value w = 2 ^ w.length - 1 := by
      by_cases h0 : w.length = 0
      · rw [List.length_eq_zero_iff.mp h0]
        rfl
      · by_contra hne
        exact h (.inr ⟨h0, hne⟩)
    refine ⟨by omega, value_inj hw (binary_ones _) List.length_replicate.symm ?_⟩
    rw [value_ones, hval]
  · rintro ⟨hlt, hones⟩ (hlong | ⟨-, hne⟩)
    · omega
    · refine hne ?_
      rw [← value_ones, ← hones]

theorem huffDecode_huffBytes {s : Bytes} (hs : s.length ≤ huffMaxOut) (cap : Nat) :
    huffDecode (huffBytes s) cap = some ⟨s.take cap, s.length, decide (cap < s.length), s.any isUpper⟩ := by
  have hk : (8 - (huffEncode s).length % 8) % 8 < 8 := Nat.mod_lt _ (by omega)
  generalize hpad : (8 - (huffEncode s).length % 8) % 8 = k at hk
  have hend := (@huffEnd_iff cap (s.map UInt8.toNat) _ (binary_ones k)).mpr
    ⟨by rw [List.length_replicate]; exact hk, by rw [List.length_replicate]⟩
  obtain ⟨hout, hlen, htrunc, hupper⟩ := huffAt_string cap s (List.replicate k 1)
  rw [huffDecode_eq, huffBytes_bits, hpad, huffBits_string cap (inner_ones hk), if_pos hs, Option.bind_some,
    if_neg hend, hout, hlen, htrunc, hupper]

theorem huffDecode_isSome {src : Bytes} {cap : Nat} (h : (huffDecode src cap).isSome) :
    ∃ s : Bytes, s.length ≤ huffMaxOut ∧ src = huffBytes s := by
  obtain ⟨syms, w, hsyms, hw, heq, hrun⟩ := huffBits_run cap (binary_byteBits src)
  rw [huffDecode_eq, hrun] at h
  by_cases hlegal : HuffLegal syms
  · rw [if_pos hlegal, Option.bind_some] at h
    by_cases hend : 8 ≤ (huffAt cap syms w).nbits ∨
        ((huffAt cap syms w).nbits ≠ 0 ∧ (huffAt cap syms w).code ≠ 2 ^ (huffAt cap syms w).nbits - 1)
    · rw [if_pos hend] at h
      cases h
    · obtain ⟨hlt, hones⟩ := (huffEnd_iff hw.binary).mp hend
      have hlt256 : ∀ n ∈ syms, n < 256 := by
        intro n hn
        have hne : n ≠ huffEos := fun he => hlegal.1 (he ▸ hn)
        exact Nat.lt_of_le_of_ne (hsyms n hn) hne
      refine ⟨syms.map UInt8.ofNat, by rw [List.length_map]; exact hlegal.2, eq_huffBytes hlt ?_⟩
      rw [huffEncode_map hlt256, ← hones]
      exact heq
  · rw [if_neg hlegal] at h
    cases h

/-- The decoder and the code: the words are prefix-free and complete, every string of a size is read back from its
encoding, whatever the room for it, and nothing else is read. -/
theorem huffDecode_exact :
    (∀ n off, n ≤ huffMaxLen → off < huffCount.getD n 0 →
      huffWord (huffSymAt n off) = bits n (huffFirstCode.getD n 0 + off)) ∧
    (∀ a b, a ≤ huffEos → b ≤ huffEos → huffWord a <+: huffWord b → a = b) ∧
    (∀ w, Binary w → huffMaxLen ≤ w.length → ∃ sym ≤ huffEos, huffWord sym <+: w) ∧
    (∀ s : Bytes, s.length ≤ 65536 → ∀ cap,
      huffDecode (huffBytes s) cap = some ⟨s.take cap, s.length, decide (cap < s.length), s.any isUpper⟩) ∧
    (∀ src cap, (huffDecode src cap).isSome → ∃ s : Bytes, s.length ≤ 65536 ∧ src = huffBytes s) := by
  exact ⟨fun n off hn hoff => huffWord_symAt hn hoff, fun a b => huffWord_prefix, fun w => huffWord_complete,
    fun s hs cap => huffDecode_huffBytes hs cap, fun src cap h => huffDecode_isSome h⟩

theorem huffDecode_exact_sample : huffDecode (huffBytes [0x61, 0x41, 0x7A]) 2 = some ⟨[0x61, 0x41], 3, true, true⟩ ∧
    ∃ s : Bytes, s.length ≤ 65536 ∧ [0x1F] = huffBytes s :=
  ⟨huffDecode_exact.2.2.2.1 [0x61, 0x41, 0x7A] (by decide) 2,
    huffDecode_exact.2.2.2.2 [0x1F] 0 rfl⟩

end Qanat
