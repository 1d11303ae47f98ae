import Qanat.CertFraming
import Qanat.TlsSession

namespace Qanat

open Scanner

section Scan13

def Cert13Scan.machine : Machine Cert13Scan UInt8 where
  bad := Cert13Scan.bad
  step := Cert13Scan.byte
  isDone := Cert13Scan.isDone
  count := Cert13Scan.count
  done_ok := by
    intro c h
    simp only [Cert13Scan.isDone, decide_eq_true_eq] at h
    simp [Cert13Scan.bad, h.1]

variable {total n : Nat}

theorem Cert13Scan.takes_failed {c : Cert13Scan} (h : c.state = .failed) (p : Bytes) :
    ¬ Cert13Scan.machine.Takes n c p :=
  Cert13Scan.machine.takes_bad (decide_eq_true h) p

theorem Cert13Scan.open {c : Cert13Scan} (hf : c.state ≠ .failed) (hd : c.state ≠ .done) :
    Cert13Scan.machine.bad c = false ∧ Cert13Scan.machine.isDone c = false := by
  simp [Cert13Scan.machine, Cert13Scan.bad, Cert13Scan.isDone, hf, hd]

/-- Between two entries, with `left` bytes of the list to come. -/
def Cert13Scan.between (total left count : Nat) : Cert13Scan :=
  ⟨total, total - left, left, 0, 0, count, [], if left = 0 then .done else .entryLen⟩

/-- Before `k` bytes of extensions. -/
def Cert13Scan.ext (total left k count : Nat) : Cert13Scan :=
  if k = 0 then Cert13Scan.between total left (count + 1)
  else ⟨total, total - left, left, 0, k, count, [], .extBody⟩

theorem takes13_done {count : Nat} (hcount : 0 < count) (p : Bytes) :
    Cert13Scan.machine.Takes n (Cert13Scan.between total 0 count) p ↔ p = [] ∧ count = n := by
  cases p with
  | nil =>
    rw [Cert13Scan.machine.takes_nil]
    simp [Cert13Scan.machine, Cert13Scan.between, Cert13Scan.isDone, hcount]
  | cons b p =>
    rw [Cert13Scan.machine.takes_cons (by simp [Cert13Scan.machine, Cert13Scan.between, Cert13Scan.bad])]
    constructor
    · intro h
      refine absurd h (Cert13Scan.takes_failed ?_ p)
      simp [Cert13Scan.machine, Cert13Scan.byte, Cert13Scan.read, Cert13Scan.between]
    · rintro ⟨h, -⟩
      cases h

/-- The length of an entry takes three bytes, and leaves room for the entry and the length of its extensions. -/
theorem takes13_entryLen {left count : Nat} (hle : left ≤ total) (p : Bytes) :
    Cert13Scan.machine.Takes n ⟨total, total - left, left, 0, 0, count, [], .entryLen⟩ p ↔
      ∃ len rest, p = len ++ rest ∧ len.length = 3 ∧ (rd24 len ≠ 0 ∧ 5 + rd24 len ≤ left) ∧
        Cert13Scan.machine.Takes n ⟨total, total - (left - 3), left - 3, rd24 len, 0, count, [], .entryBody⟩ rest := by
  let part := fun len : Bytes => Cert13Scan.mk total (total - left + len.length) left 0 0 count len .entryLen
  have hopen : ∀ l, Cert13Scan.machine.bad (part l) = false ∧ Cert13Scan.machine.isDone (part l) = false :=
    fun l => Cert13Scan.open (by simp [part]) (by simp [part])
  have hmore : ∀ (l : Bytes) b, l.length < left → l.length < 2 →
      Cert13Scan.machine.step (part l) b = part (l ++ [b]) := by
    intro l b hroom hlen
    simp only [Cert13Scan.machine, Cert13Scan.byte, Cert13Scan.read, part, List.length_append, List.length_singleton]
    rw [if_neg (by simp; omega), if_pos (by omega), Nat.add_assoc]
  by_cases h3 : left < 3
  · constructor
    · intro h
      refine absurd h (Cert13Scan.machine.takes_cut part (fun l _ => hopen l)
        (fun l b hl => hmore l b hl (by omega)) ?_ p)
      intro l b hl
      simp [Cert13Scan.machine, Cert13Scan.bad, Cert13Scan.byte, Cert13Scan.read, part, hl, Nat.sub_add_cancel hle]
    · rintro ⟨len, rest, -, -, ⟨-, hbig⟩, -⟩
      omega
  refine Cert13Scan.machine.takes_field part (fun l _ => hopen l) (fun l b hl => hmore l b (by omega) hl) _ _ ?_ ?_ p
  all_goals
    intro l b hl hok
    simp only [Cert13Scan.machine, Cert13Scan.bad, Cert13Scan.byte, Cert13Scan.read, part, List.length_append,
      List.length_singleton, hl]
    rw [if_neg (by simp; omega), if_neg (by decide)]
  · rw [if_neg (by omega), if_neg (by omega), show total - left + 2 + 1 = total - (left - 3) by omega]
  · split_ifs
    · rfl
    · rfl
    · omega

theorem takes13_entryBody {left k count : Nat} (hle : left ≤ total) (hroom : k + 1 ≤ left) (p : Bytes) :
    Cert13Scan.machine.Takes n ⟨total, total - left, left, k + 1, 0, count, [], .entryBody⟩ p ↔
      ∃ cert rest, p = cert ++ rest ∧ cert.length = k + 1 ∧ Cert13Scan.machine.Takes n
        ⟨total, total - (left - (k + 1)), left - (k + 1), 0, 0, count, [], .extLen⟩ rest := by
  let part := fun cert : Bytes =>
    Cert13Scan.mk total (total - left + cert.length) (left - cert.length) (k + 1 - cert.length) 0 count [] .entryBody
  refine Cert13Scan.machine.takes_body part (fun l _ => Cert13Scan.open (by simp [part]) (by simp [part])) ?_ _ ?_ p
  · intro l b hl
    simp only [Cert13Scan.machine, Cert13Scan.byte, Cert13Scan.read, part, List.length_append, List.length_singleton]
    rw [if_neg (by simp; omega), if_neg (by omega), Nat.add_assoc, Nat.sub_sub, Nat.sub_sub]
  · intro l b hl
    simp only [Cert13Scan.machine, Cert13Scan.byte, Cert13Scan.read, part, hl]
    have hseen : total - left + k + 1 = total - (left - (k + 1)) := by omega
    have hentry : k + 1 - k - 1 = 0 := by omega
    rw [if_neg (by simp; omega), if_pos (by omega), hseen, hentry, Nat.sub_sub]

theorem takes13_extLen {left count : Nat} (hle : left ≤ total) (h2 : 2 ≤ left) (p : Bytes) :
    Cert13Scan.machine.Takes n ⟨total, total - left, left, 0, 0, count, [], .extLen⟩ p ↔
      ∃ len rest, p = len ++ rest ∧ len.length = 2 ∧ rd16 len ≤ left - 2 ∧
        Cert13Scan.machine.Takes n (Cert13Scan.ext total (left - 2) (rd16 len) count) rest := by
  let part := fun len : Bytes =>
    Cert13Scan.mk total (total - left + len.length) (left - len.length) 0 0 count len .extLen
  refine Cert13Scan.machine.takes_field part (fun l _ => Cert13Scan.open (by simp [part]) (by simp [part]))
    ?_ _ _ ?_ ?_ p
  · intro l b hl
    simp only [Cert13Scan.machine, Cert13Scan.byte, Cert13Scan.read, part, List.length_append, List.length_singleton]
    rw [if_neg (by simp; omega), if_neg (by omega), if_pos (by omega), Nat.add_assoc, Nat.sub_sub]
  all_goals
    intro l b hl hok
    simp only [Cert13Scan.machine, Cert13Scan.bad, Cert13Scan.byte, Cert13Scan.read, part, List.length_append,
      List.length_singleton, hl]
    rw [if_neg (by simp; omega), if_neg (by omega), if_neg (by decide)]
  · have hseen : total - left + 1 + 1 = total - (left - 2) := by omega
    rw [if_neg (by omega), hseen, Nat.sub_sub, Cert13Scan.ext]
    split_ifs
    · rfl
    · rfl
  · rw [if_pos (by omega)]
    rfl

theorem takes13_ext {left k count : Nat} (hle : left ≤ total) (hroom : k ≤ left) (p : Bytes) :
    Cert13Scan.machine.Takes n (Cert13Scan.ext total left k count) p ↔ ∃ ext rest, p = ext ++ rest ∧ ext.length = k ∧
      Cert13Scan.machine.Takes n (Cert13Scan.between total (left - k) (count + 1)) rest := by
  cases k with
  | zero =>
    rw [Cert13Scan.ext, if_pos rfl]
    constructor
    · intro h
      exact ⟨[], p, rfl, rfl, h⟩
    · rintro ⟨ext, rest, rfl, hlen, h⟩
      obtain rfl := List.eq_nil_of_length_eq_zero hlen
      exact h
  | succ k =>
    rw [Cert13Scan.ext, if_neg (Nat.succ_ne_zero k)]
    let part := fun ext : Bytes =>
      Cert13Scan.mk total (total - left + ext.length) (left - ext.length) 0 (k + 1 - ext.length) count [] .extBody
    refine Cert13Scan.machine.takes_body part (fun l _ => Cert13Scan.open (by simp [part]) (by simp [part])) ?_ _ ?_ p
    · intro l b hl
      simp only [Cert13Scan.machine, Cert13Scan.byte, Cert13Scan.read, part, List.length_append, List.length_singleton]
      rw [if_neg (by simp; omega), if_neg (by omega), Nat.add_assoc, Nat.sub_sub, Nat.sub_sub]
    · intro l b hl
      simp only [Cert13Scan.machine, Cert13Scan.byte, Cert13Scan.read, part, hl]
      have hseen : total - left + k + 1 = total - (left - (k + 1)) := by omega
      have hext : k + 1 - k - 1 = 0 := by omega
      rw [if_neg (by simp; omega), if_pos (by omega), hseen, hext, Nat.sub_sub]
      rfl

theorem takes13_entry {left count : Nat} (hpos : left ≠ 0) (hle : left ≤ total) (p : Bytes) :
    Cert13Scan.machine.Takes n (Cert13Scan.between total left count) p ↔ ∃ e rest, p = e ++ rest ∧ Cert13Entry e ∧
      e.length ≤ left ∧ Cert13Scan.machine.Takes n (Cert13Scan.between total (left - e.length) (count + 1)) rest := by
  have hbody : ∀ len : Bytes, rd24 len ≠ 0 → 5 + rd24 len ≤ left → ∀ rest : Bytes, Cert13Scan.machine.Takes n
      ⟨total, total - (left - 3), left - 3, rd24 len, 0, count, [], .entryBody⟩ rest ↔
      ∃ cert tail, rest = cert ++ tail ∧ cert.length = rd24 len ∧ Cert13Scan.machine.Takes n
        ⟨total, total - (left - 3 - rd24 len), left - 3 - rd24 len, 0, 0, count, [], .extLen⟩ tail := by
    intro len hzero hbig rest
    obtain ⟨k, hk⟩ := Nat.exists_eq_succ_of_ne_zero hzero
    rw [hk]
    exact takes13_entryBody (by omega) (by omega) rest
  rw [Cert13Scan.between, if_neg hpos, takes13_entryLen hle]
  constructor
  · rintro ⟨len, rest, rfl, hlen, ⟨hzero, hbig⟩, h⟩
    obtain ⟨cert, rest, rfl, hcert, h⟩ := (hbody len hzero hbig rest).mp h
    obtain ⟨extLen, rest, rfl, hextLen, hext, h⟩ := (takes13_extLen (by omega) (by omega) rest).mp h
    obtain ⟨ext, rest, rfl, hextBytes, h⟩ := (takes13_ext (by omega) hext rest).mp h
    refine ⟨len ++ (cert ++ (extLen ++ ext)), rest, by simp, ⟨len, cert, extLen, ext, rfl, hlen, hcert,
      List.ne_nil_of_length_pos (by omega), hextLen, hextBytes⟩, ?_⟩
    have hlength : (len ++ (cert ++ (extLen ++ ext))).length = 3 + rd24 len + 2 + rd16 extLen := by
      simp only [List.length_append]
      omega
    rw [hlength, show left - (3 + rd24 len + 2 + rd16 extLen) = left - 3 - rd24 len - 2 - rd16 extLen by omega]
    exact ⟨by omega, h⟩
  · rintro ⟨e, rest, rfl, ⟨len, cert, extLen, ext, rfl, hlen, hcert, hne, hextLen, hextBytes⟩, hroom, h⟩
    have hzero := List.length_pos_of_ne_nil hne
    have hlength : (len ++ (cert ++ (extLen ++ ext))).length = 3 + rd24 len + 2 + rd16 extLen := by
      simp only [List.length_append]
      omega
    rw [hlength] at hroom h
    rw [show left - (3 + rd24 len + 2 + rd16 extLen) = left - 3 - rd24 len - 2 - rd16 extLen by omega] at h
    refine ⟨len, cert ++ (extLen ++ (ext ++ rest)), by simp, hlen, ⟨by omega, by omega⟩, ?_⟩
    refine (hbody len (by omega) (by omega) _).mpr ⟨cert, _, rfl, hcert, ?_⟩
    refine (takes13_extLen (by omega) (by omega) _).mpr ⟨extLen, _, rfl, hextLen, by omega, ?_⟩
    exact (takes13_ext (by omega) (by omega) _).mpr ⟨ext, rest, rfl, hextBytes, h⟩

theorem cert13Entry_length {e : Bytes} (h : Cert13Entry e) : 6 ≤ e.length := by
  obtain ⟨len, cert, extLen, ext, rfl, hlen, -, hne, hextLen, -⟩ := h
  have := List.length_pos_of_ne_nil hne
  simp only [List.length_append]
  omega

theorem cert13Entry_ne_nil (e : Bytes) (h : Cert13Entry e) : e ≠ [] :=
  List.ne_nil_of_length_pos (Nat.lt_of_lt_of_le (by decide) (cert13Entry_length h))

theorem takes13_listLen (h10 : 10 ≤ total) (p : Bytes) :
    Cert13Scan.machine.Takes n ⟨total, 1, 0, 0, 0, 0, [], .listLen⟩ p ↔
      ∃ len list, p = len ++ list ∧ len.length = 3 ∧ (rd24 len ≠ 0 ∧ 1 + 3 + rd24 len = total) ∧
        Cert13Scan.machine.Takes n (Cert13Scan.between total (rd24 len) 0) list := by
  let part := fun len : Bytes => Cert13Scan.mk total (1 + len.length) 0 0 0 0 len .listLen
  refine Cert13Scan.machine.takes_field part (fun l _ => Cert13Scan.open (by simp [part]) (by simp [part]))
    ?_ _ _ ?_ ?_ p
  · intro l b hl
    simp only [Cert13Scan.machine, Cert13Scan.byte, Cert13Scan.read, part, List.length_append, List.length_singleton]
    rw [if_neg (by simp; omega), if_pos (by omega), Nat.add_assoc]
  all_goals
    intro l b hl hok
    simp only [Cert13Scan.machine, Cert13Scan.bad, Cert13Scan.byte, Cert13Scan.read, Cert13Scan.between, part,
      List.length_append, List.length_singleton, hl]
    rw [if_neg (by simp; omega), if_neg (by decide)]
  · rw [if_neg (by omega), if_neg hok.1, show total - rd24 (l ++ [b]) = 1 + 2 + 1 by omega]
  · rw [if_pos (by omega)]
    rfl

/-- A fresh scan takes just the messages of the length it was told. -/
theorem takes13_message {max : Nat} (hmax : total ≤ max) (n : Nat) (p : Bytes) :
    Cert13Scan.machine.Takes n (cert13ScanInit total max) p ↔ Cert13Message n p ∧ p.length = total := by
  unfold cert13ScanInit
  by_cases h10 : total < 10
  · rw [if_pos (.inl h10)]
    constructor
    · intro h
      exact absurd h (Cert13Scan.takes_failed rfl p)
    · rintro ⟨⟨len, list, rfl, hlen, -, hn, hentries⟩, htotal⟩
      cases hentries with
      | nil => exact absurd hn (Nat.lt_irrefl 0)
      | cons he _ =>
        have hlong := cert13Entry_length he
        simp only [List.length_cons, List.length_append] at htotal
        omega
  rw [if_neg (by omega)]
  have hbyte : ∀ b : UInt8, Cert13Scan.machine.step ⟨total, 0, 0, 0, 0, 0, [], .contextLen⟩ b =
      if b = 0 then ⟨total, 1, 0, 0, 0, 0, [], .listLen⟩ else ⟨total, 1, 0, 0, 0, 0, [], .failed⟩ := by
    intro b
    simp only [Cert13Scan.machine, Cert13Scan.byte, Cert13Scan.read]
    rw [if_neg (by simp; omega)]
    split <;> rfl
  have hopen : Cert13Scan.machine.bad ⟨total, 0, 0, 0, 0, 0, [], .contextLen⟩ = false ∧
      Cert13Scan.machine.isDone ⟨total, 0, 0, 0, 0, 0, [], .contextLen⟩ = false :=
    Cert13Scan.open (by simp) (by simp)
  cases p with
  | nil =>
    rw [Cert13Scan.machine.takes_nil, hopen.2]
    constructor
    · rintro ⟨h, -⟩
      cases h
    · rintro ⟨-, htotal⟩
      rw [List.length_nil] at htotal
      omega
  | cons b p =>
    rw [Cert13Scan.machine.takes_cons hopen.1, hbyte]
    by_cases hb : b = 0
    · rw [if_pos hb, Cert13Scan.machine.takes_list cert13Entry_ne_nil (Cert13Scan.between total)
        (fun _ h => takes13_done h) (fun _ _ => takes13_entry) (takes13_listLen (by omega)) p]
      subst hb
      simp only [Cert13Message, List.cons.injEq, true_and, List.length_cons, Nat.add_comm]
    · rw [if_neg hb]
      constructor
      · intro h
        exact absurd h (Cert13Scan.takes_failed rfl p)
      · rintro ⟨⟨len, list, hp, -⟩, -⟩
        exact absurd (List.cons.inj hp).1 hb

/-- What keeps the subtractions of a scan from wrapping: the room for an entry holds two more bytes, and the
room for extensions holds what is left of their length. -/
def Cert13Scan.Sound (c : Cert13Scan) : Prop :=
  match c.state with
  | .entryBody => 0 < c.entryLeft ∧ c.entryLeft ≤ c.listLeft
  | .extBody => 0 < c.extensionsLeft ∧ c.extensionsLeft ≤ c.listLeft
  | _ => True

theorem Cert13Scan.entryDone_sound (c : Cert13Scan) : c.entryDone.Sound := by
  unfold Cert13Scan.entryDone Cert13Scan.Sound
  by_cases h : c.listLeft = 0
  · simp [h]
  · simp [h]

theorem Cert13Scan.Sound.read {c : Cert13Scan} (h : c.Sound) (b : UInt8) :
    (c.read b).1.Sound ∧ ∀ x ∈ (c.read b).2, x.2 ≤ x.1 := by
  unfold Cert13Scan.read
  split
  next => simp [Cert13Scan.Sound]
  next =>
    dsimp only
    cases hst : c.state with
    | contextLen =>
      dsimp only
      split_ifs
      all_goals simp [Cert13Scan.Sound]
    | listLen =>
      dsimp only
      split_ifs
      all_goals simp [Cert13Scan.Sound]
    | entryLen =>
      dsimp only
      split_ifs with hmore hbad hbig
      · simp [Cert13Scan.Sound]
      · simp [Cert13Scan.Sound]
      · simp [Cert13Scan.Sound]
        omega
      · simp [Cert13Scan.Sound]
        omega
    | entryBody =>
      unfold Cert13Scan.Sound at h
      rw [hst] at h
      dsimp only at h ⊢
      split_ifs with hlast
      · simp [Cert13Scan.Sound]
        omega
      · simp [Cert13Scan.Sound]
        omega
    | extLen =>
      dsimp only
      split_ifs with hnone hmore hbig hzero
      · simp [Cert13Scan.Sound]
      · simp [Cert13Scan.Sound]
        omega
      · simp [Cert13Scan.Sound]
        omega
      · simp [Cert13Scan.entryDone_sound]
        omega
      · simp [Cert13Scan.Sound]
        omega
    | extBody =>
      unfold Cert13Scan.Sound at h
      rw [hst] at h
      dsimp only at h ⊢
      split_ifs with hlast
      · simp [Cert13Scan.entryDone_sound]
        omega
      · simp [Cert13Scan.Sound]
        omega
    | done => simp [Cert13Scan.Sound]
    | failed => simp [Cert13Scan.Sound]

theorem cert13ScanInit_sound (total max : Nat) : (cert13ScanInit total max).Sound := by
  unfold cert13ScanInit Cert13Scan.Sound
  split_ifs
  · exact trivial
  · exact trivial

end Scan13

/-- The pieces of a message are all taken, and the scan is through, just when they make up a Certificate
message of the length it was told, with `count` the number of its entries; no counter ever wraps, and what has
failed stays failed. -/
theorem cert_scans_exact {total max : Nat} (hmax : total ≤ max) (fs : List Bytes) :
    ScanExact certScanPush CertScan.isDone CertScan.count CertScan.subtractions
      (fun n => CertMessage n fs.flatten ∧ fs.flatten.length = total) (certScanAll (certScanInit total max) fs) ∧
    ScanExact cert13ScanPush Cert13Scan.isDone Cert13Scan.count Cert13Scan.subtractions
      (fun n => Cert13Message n fs.flatten ∧ fs.flatten.length = total)
      (cert13ScanAll (cert13ScanInit total max) fs) := by
  constructor
  · exact scanExact (M := CertScan.machine) (takes_message hmax) (certScanInit_sound total max)
      (fun _ h => h.read) fs
  · exact scanExact (M := Cert13Scan.machine) (takes13_message hmax) (cert13ScanInit_sound total max)
      (fun _ h => h.read) fs

/-- A message of one certificate, cut in the middle of a length. -/
theorem cert_scans_exact_cut :
    (cert13ScanAll (cert13ScanInit 10 tlsCertMax) [[0, 0], [0, 6, 0, 0, 1], [7, 0, 0]]).1.count = 1 ∧
      Cert13Message 1 [0, 0, 0, 6, 0, 0, 1, 7, 0, 0] :=
  ⟨by decide, (((cert_scans_exact (show 10 ≤ tlsCertMax by decide)
    [[0, 0], [0, 6, 0, 0, 1], [7, 0, 0]]).2.accepts 1).mp (by decide)).1⟩

end Qanat
