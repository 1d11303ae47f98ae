import Qanat.StoreInv

namespace Qanat

/-- The characters of a printed address. -/
def isInetChar (c : UInt8) : Bool :=
  isDigit c || (97 ≤ c && c ≤ 102) || c == 58 || c == chDot

/-- What the C library promises of the text forms of addresses. -/
structure InetText.Sound (inet : InetText) : Prop where
  pton4_ipv4Str : ∀ a, inet.pton4 (ipv4Str a) = some a
  pton4_ntop6 : ∀ b, inet.pton4 (inet.ntop6 b) = none
  pton6_ntop6 : ∀ b, inet.pton6 (inet.ntop6 b) = some b
  chars_ntop6 : ∀ b, ∀ c ∈ inet.ntop6 b, isInetChar c = true
  ntop6_ne_nil : ∀ b, inet.ntop6 b ≠ []
  length_ntop6 : ∀ b, (inet.ntop6 b).length < 46

section Words

/-- A text without separators, signs of comments or ends of text. -/
structure PlainWord (f : Bytes) : Prop where
  ne_nil : f ≠ []
  plain : ∀ c ∈ f, 46 ≤ c

theorem plain_ne {c d : UInt8} (h : 46 ≤ c) (hd : d < 46) : c ≠ d := by
  rintro rfl
  exact absurd (UInt8.lt_of_lt_of_le hd h) (UInt8.lt_irrefl _)

theorem isFieldSep_plain {c : UInt8} (h : 46 ≤ c) : isFieldSep c = false := by
  have hsp : c ≠ chSp := plain_ne h (by decide)
  have htab : c ≠ chTab := plain_ne h (by decide)
  have hcr : c ≠ chCr := plain_ne h (by decide)
  have hlf : c ≠ chLf := plain_ne h (by decide)
  simp [isFieldSep, hsp, htab, hcr, hlf]

theorem plain_isInetChar {c : UInt8} (h : isInetChar c = true) : 46 ≤ c := by
  simp only [isInetChar, isDigit, Bool.or_eq_true, Bool.and_eq_true, decide_eq_true_eq, beq_iff_eq] at h
  obtain ((h | h) | rfl) | rfl := h
  · exact UInt8.le_trans (by decide) h.1
  · exact UInt8.le_trans (by decide) h.1
  · decide
  · decide

theorem plainWord_render (n : Nat) : PlainWord (Decimal.render n) := by
  refine ⟨Decimal.render_ne_nil n, fun c hc => ?_⟩
  have h := Decimal.isDigit_render hc
  rw [Decimal.isDigit, Bool.and_eq_true, decide_eq_true_eq, decide_eq_true_eq] at h
  exact UInt8.le_trans (by decide) h.1

theorem octetStr_facts (v : Fin 256) :
    (octetStr v).length ≤ 3 ∧ octetStr v ≠ [] ∧ ∀ c ∈ octetStr v, isDigit c = true := by
  rw [← List.all_eq_true]
  revert v
  decide +kernel

theorem octet_lt (a : UInt32) : (a &&& 0xFF).toNat < 256 := by
  rw [UInt32.toNat_and]
  exact Nat.lt_of_le_of_lt Nat.and_le_right (by decide)

theorem octetStr_byte (a : UInt32) :
    (octetStr (a &&& 0xFF).toNat).length ≤ 3 ∧ octetStr (a &&& 0xFF).toNat ≠ [] ∧
      ∀ c ∈ octetStr (a &&& 0xFF).toNat, isDigit c = true :=
  octetStr_facts ⟨_, octet_lt a⟩

theorem length_ipv4Str (a : UInt32) : (ipv4Str a).length < 46 := by
  have h₃ := (octetStr_byte (a >>> 24)).1
  have h₂ := (octetStr_byte (a >>> 16)).1
  have h₁ := (octetStr_byte (a >>> 8)).1
  have h₀ := (octetStr_byte a).1
  simp only [ipv4Str, List.length_append, List.length_cons]
  omega

theorem isInetChar_ipv4Str {a : UInt32} {c : UInt8} (h : c ∈ ipv4Str a) : isInetChar c = true := by
  have hdig : ∀ {x : UInt32}, c ∈ octetStr (x &&& 0xFF).toNat → isInetChar c = true := by
    intro x hx
    simp [isInetChar, (octetStr_byte x).2.2 c hx]
  have hdot : isInetChar chDot = true := by decide
  simp only [ipv4Str, List.mem_append, List.mem_cons] at h
  obtain ((h | rfl | h) | rfl | h) | rfl | h := h
  · exact hdig h
  · exact hdot
  · exact hdig h
  · exact hdot
  · exact hdig h
  · exact hdot
  · exact hdig h

variable {inet : InetText}

theorem plainWord_addrStr (hi : inet.Sound) (a : Addr) : PlainWord (addrStr inet a) := by
  cases a with
  | v4 a =>
    refine ⟨fun h => ?_, fun c hc => plain_isInetChar (isInetChar_ipv4Str hc)⟩
    have := congrArg List.length h
    simp only [addrStr, ipv4Str, List.length_append, List.length_cons, List.length_nil] at this
    omega
  | v6 b => exact ⟨hi.ntop6_ne_nil b, fun c hc => plain_isInetChar (hi.chars_ntop6 b c hc)⟩

theorem length_addrStr (hi : inet.Sound) (a : Addr) : (addrStr inet a).length < 46 := by
  cases a with
  | v4 a => exact length_ipv4Str a
  | v6 b => exact hi.length_ntop6 b

theorem storeAddrParse_addrStr (hi : inet.Sound) (a : Addr) : storeAddrParse inet (addrStr inet a) = some a := by
  unfold storeAddrParse
  rw [if_neg (plainWord_addrStr hi a).ne_nil]
  cases a with
  | v4 a => rw [addrStr, hi.pton4_ipv4Str]
  | v6 b =>
    rw [addrStr, hi.pton4_ntop6]
    dsimp only
    rw [hi.pton6_ntop6, Option.map_some]

/-- A word and the separator behind it are a field. -/
theorem splitFields_word {f t : Bytes} {c : UInt8} (hf : PlainWord f) (hc : isFieldSep c = true) :
    splitFields (f ++ c :: t) = f :: splitFields t := by
  obtain ⟨hne, hplain⟩ := hf
  induction f with
  | nil => exact absurd rfl hne
  | cons x f ih =>
    have hx := isFieldSep_plain (hplain x List.mem_cons_self)
    cases f with
    | nil =>
      have hskip : splitFields (c :: t) = splitFields t := by
        rw [splitFields, if_pos hc]
      rw [List.singleton_append, splitFields, if_neg (by simp [hx]), hskip]
      simp [hc]
    | cons y f =>
      have hy := isFieldSep_plain (hplain y (List.mem_cons_of_mem _ List.mem_cons_self))
      have hrest := ih (List.cons_ne_nil y f) fun d hd => hplain d (List.mem_cons_of_mem _ hd)
      rw [List.cons_append, splitFields, if_neg (by simp [hx]), hrest]
      simp [hy]

end Words

section Text

variable {inet : InetText} {cap : Nat} {e : StoreEntry}

/-- A line of at most 255 bytes is read as it stands. -/
theorem fgets_line {body rest : Bytes} (h : chLf ∉ body) (hlen : body.length < 255) :
    fgets (body ++ chLf :: rest) = (body ++ [chLf], rest, false) := by
  have hmem : chLf ∈ (body ++ chLf :: rest).take 255 := by
    rw [List.take_append, List.mem_append]
    refine .inr ?_
    obtain ⟨k, hk⟩ : ∃ k, 255 - body.length = k + 1 := ⟨254 - body.length, by omega⟩
    rw [hk, List.take_succ_cons]
    exact List.mem_cons_self
  have hne : ∀ c ∈ body, decide (c ≠ chLf) = true := fun c hc => decide_eq_true fun e => h (e ▸ hc)
  unfold fgets
  rw [if_pos hmem, List.takeWhile_append_of_pos hne, List.dropWhile_append_of_pos hne]
  simp

/-- The text of an entry without the end of its line. -/
def entryBody (inet : InetText) (e : StoreEntry) : Bytes :=
  addrStr inet e.addr ++ chSp :: Decimal.render e.lastSeen ++ chSp :: Decimal.render e.runs ++
    chSp :: Decimal.render e.score ++ chSp :: Decimal.render e.weight ++ chSp :: Decimal.render e.operMask ++
    chSp :: Decimal.render e.handshakeUs

theorem entryLine_eq : entryLine inet e = entryBody inet e ++ [chLf] := rfl

theorem mem_entryBody (hi : inet.Sound) {c : UInt8} (h : c ∈ entryBody inet e) : c = chSp ∨ 46 ≤ c := by
  have hnum : ∀ {n : Nat}, c ∈ Decimal.render n → c = chSp ∨ 46 ≤ c := fun hc => .inr ((plainWord_render _).plain c hc)
  simp only [entryBody, List.mem_append, List.mem_cons] at h
  obtain (((((h | h | h) | h | h) | h | h) | h | h) | h | h) | h | h := h
  · exact .inr ((plainWord_addrStr hi e.addr).plain c h)
  all_goals first | exact .inl h | exact hnum h

theorem length_entryBody (hi : inet.Sound) (he : e.Fits) : (entryBody inet e).length < 255 := by
  have haddr := length_addrStr hi e.addr
  have hseen := Decimal.length_render_le (k := 20) (by decide) (he.lastSeen.trans (by decide))
  have hruns := Decimal.length_render_le (k := 10) (by decide) (he.runs.trans (by decide))
  have hscore := Decimal.length_render_le (k := 10) (by decide) (he.score.trans (by decide))
  have hweight := Decimal.length_render_le (k := 10) (by decide) (he.weight.trans (by decide))
  have hmask := Decimal.length_render_le (k := 10) (by decide) (he.operMask.trans (by decide))
  have hhand := Decimal.length_render_le (k := 10) (by decide) (he.handshakeUs.trans (by decide))
  simp only [entryBody, List.length_append, List.length_cons]
  omega

theorem splitFields_entryLine (hi : inet.Sound) :
    splitFields (entryLine inet e) =
      [addrStr inet e.addr, Decimal.render e.lastSeen, Decimal.render e.runs, Decimal.render e.score,
        Decimal.render e.weight, Decimal.render e.operMask, Decimal.render e.handshakeUs] := by
  have hsp : isFieldSep chSp = true := by decide
  have hlf : isFieldSep chLf = true := by decide
  simp only [entryLine, List.append_assoc, List.cons_append]
  rw [splitFields_word (plainWord_addrStr hi e.addr) hsp, splitFields_word (plainWord_render _) hsp,
    splitFields_word (plainWord_render _) hsp, splitFields_word (plainWord_render _) hsp,
    splitFields_word (plainWord_render _) hsp, splitFields_word (plainWord_render _) hsp,
    splitFields_word (plainWord_render _) hlf]
  rfl

/-- The loader's checks on an entry and the entries before it. -/
def pushEntry (cap : Nat) (loaded : List StoreEntry) (e : StoreEntry) : Option (List StoreEntry) :=
  if cap ≤ loaded.length ∨ e.weight < e.score ∨ (e.runs = 0 ↔ e.weight ≠ 0) ∨ e.addr ∈ loaded.map StoreEntry.addr then none
  else some (loaded ++ [e])

theorem parseU64_render {n max : Nat} (h : n ≤ max) (hmax : max < 2 ^ 64) : parseU64 (Decimal.render n) max = some n := by
  unfold parseU64
  rw [Decimal.read_render (h.trans_lt hmax)]
  simp [h]

theorem storeFields_entry (hi : inet.Sound) (he : e.Fits) (st : StoreScan) :
    storeFields inet cap st (splitFields (entryLine inet e)) =
      (pushEntry cap st.loaded e).map fun l => { st with loaded := l } := by
  have hfit : ∀ {n : Nat}, n < 2 ^ 32 → parseU64 (Decimal.render n) (2 ^ 32 - 1) = some n := fun h =>
    parseU64_render (Nat.le_sub_one_of_lt h) (by decide)
  rw [splitFields_entryLine hi]
  simp only [storeFields, storeAddrParse_addrStr hi, parseU64_render (Nat.le_sub_one_of_lt he.lastSeen) (by decide),
    hfit he.runs, hfit he.score, hfit he.weight, hfit he.operMask, hfit he.handshakeUs, Option.bind_eq_bind,
    Option.bind_some, pushEntry]
  split <;> rfl

theorem entryBody_head (hi : inet.Sound) : ∃ c t, entryBody inet e = c :: t ∧ 46 ≤ c := by
  have hw := plainWord_addrStr hi e.addr
  obtain ⟨c, t, hct⟩ := List.exists_cons_of_ne_nil hw.ne_nil
  have hc := hw.plain c (hct ▸ List.mem_cons_self)
  simp only [entryBody, hct, List.cons_append]
  exact ⟨c, _, rfl, hc⟩

theorem storeLine_entry (hi : inet.Sound) (he : e.Fits) {st : StoreScan} (hst : st.seenSchema = true) :
    storeLine inet cap st (entryLine inet e) false = (pushEntry cap st.loaded e).map fun l => { st with loaded := l } := by
  obtain ⟨c, t, hct, hc⟩ := entryBody_head (e := e) hi
  have hline : entryLine inet e = c :: (t ++ [chLf]) := by
    rw [entryLine_eq, hct, List.cons_append]
  have htext : (entryLine inet e).takeWhile (· ≠ 0) = entryLine inet e := by
    refine List.takeWhile_eq_self_iff.mpr fun d hd => decide_eq_true ?_
    rw [entryLine_eq, List.mem_append, List.mem_singleton] at hd
    obtain hd | rfl := hd
    · obtain rfl | hd := mem_entryBody hi hd
      · decide
      · exact plain_ne hd (by decide)
    · decide
  have hlf : chLf ∈ entryLine inet e := by
    rw [entryLine_eq]
    exact List.mem_append_right _ List.mem_cons_self
  have hblank : isBlank c = false := by
    have hsp : c ≠ chSp := plain_ne hc (by decide)
    have htab : c ≠ chTab := plain_ne hc (by decide)
    simp [isBlank, hsp, htab]
  have hskip : skipBlanks (entryLine inet e) = c :: (t ++ [chLf]) := by
    rw [skipBlanks, hline, List.dropWhile_cons_of_neg (by simp [hblank])]
  have hdata : ¬(c = chCr ∨ c = chLf ∨ c = 0x23) := by
    rintro (rfl | rfl | rfl) <;> exact absurd hc (by decide)
  have hfields := @storeFields_entry inet cap e hi he st
  rw [hline] at hfields
  unfold storeLine
  dsimp only
  rw [htext, if_neg (by simp [hlf]), hskip]
  simp only [hst, if_true, Bool.not_true, if_neg hdata, Bool.false_eq_true, if_false, hfields]

theorem storeLine_header : storeLine inet cap ⟨[], false⟩ storeHeader false = some ⟨[], true⟩ := by
  have htext : storeHeader.takeWhile (· ≠ 0) = storeHeader := rfl
  have hlf : chLf ∈ storeHeader := by decide
  have hschema : readSchema storeHeader = some storeSchema := rfl
  unfold storeLine
  dsimp only
  rw [htext, if_neg (by simp [hlf])]
  simp only [hschema, Bool.false_eq_true, if_false]
  rfl

theorem header_body : ∃ body, storeHeader = body ++ [chLf] ∧ chLf ∉ body ∧ body.length < 255 :=
  ⟨storeHeader.dropLast, rfl, by decide, by decide⟩

theorem storeLoop_line {n : Nat} {body rest : Bytes} {st : StoreScan} (h : chLf ∉ body) (hlen : body.length < 255) :
    storeLoop inet cap (n + 1) (body ++ [chLf] ++ rest) st =
      (storeLine inet cap st (body ++ [chLf]) false).bind (storeLoop inet cap n rest) := by
  have hf := @fgets_line body rest h hlen
  obtain ⟨c, t, hct⟩ : ∃ c t, body ++ chLf :: rest = c :: t := by
    cases body with
    | nil => exact ⟨_, _, rfl⟩
    | cons c t => exact ⟨_, _, rfl⟩
  rw [List.append_assoc, List.singleton_append, hct, storeLoop, ← hct, hf]

/-- Reading written entries back is pushing them one by one. -/
theorem storeLoop_entries (hi : inet.Sound) {l : List StoreEntry} (hl : ∀ e ∈ l, e.Fits) {n : Nat} {st : StoreScan}
    (hst : st.seenSchema = true) (hn : (l.flatMap (entryLine inet)).length ≤ n) :
    (storeLoop inet cap n (l.flatMap (entryLine inet)) st).map StoreScan.loaded = l.foldlM (pushEntry cap) st.loaded := by
  induction l generalizing n st with
  | nil =>
    rw [List.flatMap_nil, List.foldlM_nil]
    cases n <;> rfl
  | cons e l ih =>
    have he := hl e List.mem_cons_self
    rw [List.flatMap_cons, entryLine_eq, List.length_append, List.length_append, List.length_singleton] at hn
    obtain ⟨m, rfl⟩ : ∃ m, n = m + 1 := ⟨n - 1, by omega⟩
    have hnolf : chLf ∉ entryBody inet e := by
      intro h
      obtain h | h := mem_entryBody hi h
      · exact absurd h (by decide)
      · exact absurd h (by decide)
    rw [List.flatMap_cons, entryLine_eq, storeLoop_line hnolf (length_entryBody hi he), ← entryLine_eq,
      storeLine_entry hi he hst, List.foldlM_cons]
    cases pushEntry cap st.loaded e with
    | none => rfl
    | some loaded => exact ih (fun x hx => hl x (List.mem_cons_of_mem _ hx)) hst (by omega)

theorem storeParse_storeText (hi : inet.Sound) {l : List StoreEntry} (hl : ∀ e ∈ l, e.Fits) :
    storeParse inet cap (storeText inet l) = l.foldlM (pushEntry cap) [] := by
  obtain ⟨body, hbody, hlf, hlen⟩ := header_body
  have hsize : (storeText inet l).length = (body.length + (l.flatMap (entryLine inet)).length) + 1 := by
    rw [storeText, hbody, List.length_append, List.length_append, List.length_singleton]
    omega
  unfold storeParse
  rw [hsize, storeText, hbody, storeLoop_line hlf hlen, ← hbody, storeLine_header, Option.bind_some]
  exact storeLoop_entries hi hl rfl (Nat.le_add_left _ _)

end Text

end Qanat
