import Qanat.CertScan

namespace Qanat

open Scanner

/-- An entry of a TLS 1.2 certificate list: a 24-bit length, not zero, and that many bytes. -/
def CertEntry (e : Bytes) : Prop :=
  ∃ len cert, e = len ++ cert ∧ len.length = 3 ∧ cert.length = rd24 len ∧ cert ≠ []

/-- A Certificate message of TLS 1.2 with `n` entries. -/
def CertMessage (n : Nat) (p : Bytes) : Prop :=
  ∃ len list, p = len ++ list ∧ len.length = 3 ∧ list.length = rd24 len ∧ 0 < n ∧ Entries CertEntry n list

/-- An entry of a TLS 1.3 certificate list: behind the certificate stands a block of extensions with its length. -/
def Cert13Entry (e : Bytes) : Prop :=
  ∃ len cert extLen ext, e = len ++ (cert ++ (extLen ++ ext)) ∧ len.length = 3 ∧ cert.length = rd24 len ∧ cert ≠ [] ∧
    extLen.length = 2 ∧ ext.length = rd16 extLen

/-- A Certificate message of TLS 1.3 with an empty context and `n` entries. -/
def Cert13Message (n : Nat) (p : Bytes) : Prop :=
  ∃ len list, p = 0 :: (len ++ list) ∧ len.length = 3 ∧ list.length = rd24 len ∧ 0 < n ∧ Entries Cert13Entry n list

/-- `qn_cert_scan_push` on the pieces of a message, one after the other. -/
def certScanAll : CertScan → List Bytes → CertScan × Bool :=
  pushAll CertScan.bad CertScan.byte

def cert13ScanAll : Cert13Scan → List Bytes → Cert13Scan × Bool :=
  pushAll Cert13Scan.bad Cert13Scan.byte

/-- What `qn_cert_scan_push` subtracts for a byte, and what it subtracts it from. -/
def CertScan.subtractions (c : CertScan) (b : UInt8) : List (Nat × Nat) :=
  (c.read b).2

/-- What `qn_cert13_scan_push` subtracts for a byte, and what it subtracts it from. -/
def Cert13Scan.subtractions (c : Cert13Scan) (b : UInt8) : List (Nat × Nat) :=
  (c.read b).2

/-- What a scan `r` of a message in pieces has come to. -/
structure ScanExact {σ : Type} (push : σ → Bytes → σ × Bool) (isDone : σ → Bool) (count : σ → Nat)
    (subtractions : σ → UInt8 → List (Nat × Nat)) (message : Nat → Prop) (r : σ × Bool) : Prop where
  accepts : ∀ n, (r.2 = true ∧ isDone r.1 = true ∧ count r.1 = n) ↔ message n
  no_wrap : ∀ b, ∀ x ∈ subtractions r.1 b, x.2 ≤ x.1
  failed : r.2 = false → isDone r.1 = false ∧ ∀ p, push r.1 p = (r.1, false)

/-- A machine that takes just the messages, and whose invariant keeps its subtractions from wrapping, is exact. -/
theorem scanExact {σ : Type} {M : Machine σ UInt8} {s : σ} {sound : σ → Prop}
    {subtractions : σ → UInt8 → List (Nat × Nat)} {message : Nat → Bytes → Prop}
    (htakes : ∀ n p, M.Takes n s p ↔ message n p) (hinit : sound s)
    (hstep : ∀ s, sound s → ∀ b, sound (M.step s b) ∧ ∀ x ∈ subtractions s b, x.2 ≤ x.1) (fs : List Bytes) :
    ScanExact (push M.bad M.step) M.isDone M.count subtractions (fun n => message n fs.flatten)
      (pushAll M.bad M.step s fs) where
  accepts n := (pushAll_accepts (fun s h => M.done_ok s h.1) fs).trans (htakes n fs.flatten)
  no_wrap b := (hstep _ (pushAll_keeps (fun s b _ h => (hstep s h b).1) hinit fs) b).2
  failed hfail := ⟨M.isDone_bad (pushAll_failed fs hfail), push_bad (pushAll_failed fs hfail)⟩

section Scan12

def CertScan.machine : Machine CertScan UInt8 where
  bad := CertScan.bad
  step := CertScan.byte
  isDone := CertScan.isDone
  count := CertScan.count
  done_ok := by
    intro c h
    simp only [CertScan.isDone, decide_eq_true_eq] at h
    simp [CertScan.bad, h.1]

variable {total n : Nat}

theorem CertScan.takes_failed {c : CertScan} (h : c.state = .failed) (p : Bytes) : ¬ CertScan.machine.Takes n c p :=
  CertScan.machine.takes_bad (decide_eq_true h) p

/-- In the middle of a field a scan has neither failed nor come to its end. -/
theorem CertScan.open {c : CertScan} (hf : c.state ≠ .failed) (hd : c.state ≠ .done) :
    CertScan.machine.bad c = false ∧ CertScan.machine.isDone c = false := by
  simp [CertScan.machine, CertScan.bad, CertScan.isDone, hf, hd]

/-- Between two entries, with `left` bytes of the list to come. -/
def CertScan.between (total left count : Nat) : CertScan :=
  ⟨total, total - left, left, 0, count, [], if left = 0 then .done else .entryLen⟩

theorem takes_done {count : Nat} (hcount : 0 < count) (p : Bytes) :
    CertScan.machine.Takes n (CertScan.between total 0 count) p ↔ p = [] ∧ count = n := by
  cases p with
  | nil =>
    rw [CertScan.machine.takes_nil]
    simp [CertScan.machine, CertScan.between, CertScan.isDone, hcount]
  | cons b p =>
    rw [CertScan.machine.takes_cons (by simp [CertScan.machine, CertScan.between, CertScan.bad])]
    constructor
    · intro h
      exact absurd h (CertScan.takes_failed (by simp [CertScan.machine, CertScan.byte, CertScan.read, CertScan.between]) p)
    · rintro ⟨h, -⟩
      cases h

/-- The length of an entry takes three bytes, and neither it nor the entry runs over the list. -/
theorem takes_entryLen {left count : Nat} (hle : left ≤ total) (p : Bytes) :
    CertScan.machine.Takes n ⟨total, total - left, left, 0, count, [], .entryLen⟩ p ↔
      ∃ len rest, p = len ++ rest ∧ len.length = 3 ∧ (rd24 len ≠ 0 ∧ 3 + rd24 len ≤ left) ∧
        CertScan.machine.Takes n ⟨total, total - left + 3, left - (3 + rd24 len), rd24 len, count, [], .entryBody⟩
          rest := by
  let part := fun len : Bytes => CertScan.mk total (total - left + len.length) left 0 count len .entryLen
  have hopen : ∀ l, CertScan.machine.bad (part l) = false ∧ CertScan.machine.isDone (part l) = false :=
    fun l => CertScan.open (by simp [part]) (by simp [part])
  have hmore : ∀ (l : Bytes) b, l.length < left → l.length < 2 →
      CertScan.machine.step (part l) b = part (l ++ [b]) := by
    intro l b hroom hlen
    simp only [CertScan.machine, CertScan.byte, CertScan.read, part, List.length_append, List.length_singleton]
    rw [if_neg (by omega), if_pos (by omega), Nat.add_assoc]
  by_cases h3 : left < 3
  · constructor
    · intro h
      refine absurd h (CertScan.machine.takes_cut part (fun l _ => hopen l) (fun l b hl => hmore l b hl (by omega)) ?_ p)
      intro l b hl
      simp [CertScan.machine, CertScan.bad, CertScan.byte, CertScan.read, part, hl, Nat.sub_add_cancel hle]
    · rintro ⟨len, rest, -, -, ⟨-, hbig⟩, -⟩
      omega
  refine CertScan.machine.takes_field part (fun l _ => hopen l) (fun l b hl => hmore l b (by omega) hl) _ _ ?_ ?_ p
  all_goals
    intro l b hl hok
    simp only [CertScan.machine, CertScan.bad, CertScan.byte, CertScan.read, part, List.length_append,
      List.length_singleton, hl]
    rw [if_neg (by omega), if_neg (by decide)]
  · rw [if_neg (by omega), if_neg (by omega)]
  · split_ifs
    · rfl
    · rfl
    · omega

theorem takes_entryBody {left k count : Nat} (hroom : left + (k + 1) ≤ total) (p : Bytes) :
    CertScan.machine.Takes n ⟨total, total - (left + (k + 1)), left, k + 1, count, [], .entryBody⟩ p ↔
      ∃ cert rest, p = cert ++ rest ∧ cert.length = k + 1 ∧
        CertScan.machine.Takes n (CertScan.between total left (count + 1)) rest := by
  let part := fun cert : Bytes =>
    CertScan.mk total (total - (left + (k + 1)) + cert.length) left (k + 1 - cert.length) count [] .entryBody
  refine CertScan.machine.takes_body part (fun l _ => CertScan.open (by simp [part]) (by simp [part])) ?_
    (CertScan.between total left (count + 1)) ?_ p
  · intro l b hl
    simp only [CertScan.machine, CertScan.byte, CertScan.read, part, List.length_append, List.length_singleton]
    rw [if_neg (by omega), if_neg (by omega), Nat.add_assoc, Nat.sub_sub]
  · intro l b hl
    simp only [CertScan.machine, CertScan.byte, CertScan.read, CertScan.between, part, hl]
    have hseen : total - (left + (k + 1)) + k + 1 = total - left := by omega
    rw [if_neg (by omega), if_pos (by omega), hseen]

theorem takes_entry {left count : Nat} (hpos : left ≠ 0) (hle : left ≤ total) (p : Bytes) :
    CertScan.machine.Takes n (CertScan.between total left count) p ↔ ∃ e rest, p = e ++ rest ∧ CertEntry e ∧
      e.length ≤ left ∧ CertScan.machine.Takes n (CertScan.between total (left - e.length) (count + 1)) rest := by
  have hbody : ∀ len : Bytes, rd24 len ≠ 0 → 3 + rd24 len ≤ left → ∀ rest : Bytes, CertScan.machine.Takes n
      ⟨total, total - left + 3, left - (3 + rd24 len), rd24 len, count, [], .entryBody⟩ rest ↔
      ∃ cert tail, rest = cert ++ tail ∧ cert.length = rd24 len ∧
        CertScan.machine.Takes n (CertScan.between total (left - (3 + rd24 len)) (count + 1)) tail := by
    intro len hzero hbig rest
    obtain ⟨k, hk⟩ := Nat.exists_eq_succ_of_ne_zero hzero
    have hseen : total - left + 3 = total - (left - (3 + rd24 len) + (k + 1)) := by omega
    rw [hseen, hk]
    exact takes_entryBody (by omega) rest
  rw [CertScan.between, if_neg hpos, takes_entryLen hle]
  constructor
  · rintro ⟨len, rest, rfl, hlen, ⟨hzero, hbig⟩, h⟩
    obtain ⟨cert, rest, rfl, hcert, h⟩ := (hbody len hzero hbig rest).mp h
    refine ⟨len ++ cert, rest, by simp, ⟨len, cert, rfl, hlen, hcert, List.ne_nil_of_length_pos (by omega)⟩, ?_⟩
    rw [List.length_append, hlen, hcert]
    exact ⟨hbig, h⟩
  · rintro ⟨e, rest, rfl, ⟨len, cert, rfl, hlen, hcert, hne⟩, hroom, h⟩
    have hzero := List.length_pos_of_ne_nil hne
    rw [List.length_append, hlen, hcert] at hroom h
    refine ⟨len, cert ++ rest, by simp, hlen, ⟨by omega, hroom⟩, ?_⟩
    exact (hbody len (by omega) hroom _).mpr ⟨cert, rest, rfl, hcert, h⟩

theorem certEntry_ne_nil (e : Bytes) (h : CertEntry e) : e ≠ [] := by
  obtain ⟨len, cert, rfl, hlen, -⟩ := h
  exact List.ne_nil_of_length_pos (by rw [List.length_append]; omega)

theorem takes_listLen (h3 : 3 ≤ total) (p : Bytes) : CertScan.machine.Takes n ⟨total, 0, 0, 0, 0, [], .listLen⟩ p ↔
    ∃ len list, p = len ++ list ∧ len.length = 3 ∧ (rd24 len ≠ 0 ∧ 0 + 3 + rd24 len = total) ∧
      CertScan.machine.Takes n (CertScan.between total (rd24 len) 0) list := by
  let part := fun len : Bytes => CertScan.mk total len.length 0 0 0 len .listLen
  refine CertScan.machine.takes_field part (fun l _ => CertScan.open (by simp [part]) (by simp [part])) ?_ _ _ ?_ ?_ p
  · intro l b hl
    simp only [CertScan.machine, CertScan.byte, CertScan.read, part, List.length_append, List.length_singleton]
    rw [if_neg (by omega), if_pos (by omega)]
  all_goals
    intro l b hl hok
    simp only [CertScan.machine, CertScan.bad, CertScan.byte, CertScan.read, CertScan.between, part, List.length_append,
      List.length_singleton, hl]
    rw [if_neg (by omega), if_neg (by decide)]
  · rw [if_neg (by omega), if_neg hok.1, show total - rd24 (l ++ [b]) = 2 + 1 by omega]
  · rw [if_pos (by omega)]
    rfl

/-- A fresh scan takes just the messages of the length it was told. -/
theorem takes_message {max : Nat} (hmax : total ≤ max) (n : Nat) (p : Bytes) :
    CertScan.machine.Takes n (certScanInit total max) p ↔ CertMessage n p ∧ p.length = total := by
  unfold certScanInit
  by_cases h3 : total < 3
  · rw [if_pos (.inl h3)]
    constructor
    · intro h
      exact absurd h (CertScan.takes_failed rfl p)
    · rintro ⟨⟨len, list, rfl, hlen, -⟩, htotal⟩
      rw [List.length_append] at htotal
      omega
  rw [if_neg (by omega)]
  refine (CertScan.machine.takes_list certEntry_ne_nil (CertScan.between total) (fun _ h => takes_done h)
    (fun _ _ => takes_entry) (takes_listLen (by omega)) p).trans ?_
  rw [Nat.zero_add]
  exact Iff.rfl

/-- What keeps the subtractions of a scan from wrapping. -/
def CertScan.Sound (c : CertScan) : Prop :=
  c.state = .entryBody → 0 < c.entryLeft

theorem CertScan.Sound.read {c : CertScan} (h : c.Sound) (b : UInt8) :
    (c.read b).1.Sound ∧ ∀ x ∈ (c.read b).2, x.2 ≤ x.1 := by
  unfold CertScan.read
  split
  next => simp [CertScan.Sound]
  next =>
    dsimp only
    cases hst : c.state with
    | listLen =>
      dsimp only
      split_ifs
      all_goals simp [CertScan.Sound]
    | entryLen =>
      dsimp only
      split_ifs with hmore hbad hbig
      · simp [CertScan.Sound]
      · simp [CertScan.Sound]
      · simp [CertScan.Sound]
        omega
      · simp [CertScan.Sound]
        omega
    | entryBody =>
      have hpos := h hst
      dsimp only
      split_ifs with hlast
      · simp [CertScan.Sound]
        omega
      · simp [CertScan.Sound]
        omega
      · simp [CertScan.Sound]
        omega
    | done => simp [CertScan.Sound]
    | failed => simp [CertScan.Sound]

theorem certScanInit_sound (total max : Nat) : (certScanInit total max).Sound := by
  unfold certScanInit CertScan.Sound
  split_ifs
  · simp
  · simp

end Scan12

end Qanat
