import Qanat.TlsTypes
import Qanat.General.Splice

namespace Qanat

open Splice

/-- `qn_outbuf`. -/
structure OutBuf where
  buf : Bytes
  cap : Nat
  len : Nat
  off : Nat
  deriving DecidableEq, Repr

/-- `qn_outbuf_init`. -/
def outbufInit (storage : Bytes) : OutBuf :=
  ⟨storage, storage.length, 0, 0⟩

/-- `qn_outbuf_reset`. -/
def outbufReset (b : OutBuf) : OutBuf :=
  { b with len := 0, off := 0 }

/-- `qn_outbuf_pending`. -/
def outbufPending (b : OutBuf) : Nat :=
  b.len - b.off

/-- The bytes that `qn_outbuf_head` and `qn_outbuf_pending` show. -/
def outbufHead (b : OutBuf) : Bytes :=
  window b.buf b.off (outbufPending b)

/-- `qn_outbuf_compact`. -/
def outbufCompact (b : OutBuf) : OutBuf :=
  if b.off = 0 then b
  else
    { b with
        buf := if outbufPending b ≠ 0 then splice b.buf 0 (outbufHead b) else b.buf
        len := outbufPending b
        off := 0 }

/-- `qn_outbuf_consume`. -/
def outbufConsume (b : OutBuf) (n : Nat) : OutBuf :=
  let b := { b with off := b.off + if outbufPending b < n then outbufPending b else n }
  if b.off = b.len then outbufReset b else b

/-- `qn_outbuf_queue`. -/
def outbufQueue (b : OutBuf) (p : Bytes) : OutBuf × Bool :=
  if b.cap < p.length then (b, false)
  else
    let b := outbufCompact b
    if b.cap - b.len < p.length then (b, false)
    else ({ b with buf := splice b.buf b.len p, len := b.len + p.length }, true)

/-- `qn_outbuf_tail`, with the room behind it. -/
def outbufTail (b : OutBuf) : OutBuf × Nat :=
  let b := outbufCompact b
  (b, b.cap - b.len)

/-- What a producer writes at the tail. -/
def outbufWrite (b : OutBuf) (p : Bytes) : OutBuf :=
  { b with buf := splice b.buf b.len p }

/-- `qn_outbuf_commit`. -/
def outbufCommit (b : OutBuf) (n : Nat) : OutBuf :=
  { b with len := b.len + if b.cap - b.len < n then b.cap - b.len else n }

/-- A buffer that calls leave behind, with the bytes they put in and how many of those they took out. -/
inductive OutRun (storage : Bytes) : OutBuf → Bytes → Nat → Prop
  | init : OutRun storage (outbufInit storage) [] 0
  | queue {b accepted consumed} (p : Bytes) : OutRun storage b accepted consumed →
      OutRun storage (outbufQueue b p).1 (if (outbufQueue b p).2 then accepted ++ p else accepted) consumed
  | produce {b accepted consumed} {p : Bytes} {n : Nat} : OutRun storage b accepted consumed →
      p.length ≤ (outbufTail b).2 → n ≤ p.length →
      OutRun storage (outbufCommit (outbufWrite (outbufTail b).1 p) n) (accepted ++ p.take n) consumed
  | consume {b accepted consumed} (n : Nat) : OutRun storage b accepted consumed →
      OutRun storage (outbufConsume b n) accepted (consumed + min n (outbufPending b))
  | compact {b accepted consumed} : OutRun storage b accepted consumed →
      OutRun storage (outbufCompact b) accepted consumed

structure OutBuf.Sound (b : OutBuf) : Prop where
  off_le : b.off ≤ b.len
  len_le : b.len ≤ b.cap
  held : b.buf.length = b.cap

section Calls

variable {b : OutBuf} {p : Bytes} {n : Nat}

theorem outbufHead_length (h : b.Sound) : (outbufHead b).length = outbufPending b := by
  have hlen := h.len_le
  have hoff := h.off_le
  refine length_window ?_
  rw [h.held, outbufPending]
  omega

/-- Sliding the bytes down keeps them, and nothing lies before them any more. -/
theorem outbufCompact_kept (h : b.Sound) : (outbufCompact b).Sound ∧ (outbufCompact b).off = 0 ∧
    (outbufCompact b).len = outbufPending b ∧ (outbufCompact b).cap = b.cap ∧
    outbufHead (outbufCompact b) = outbufHead b := by
  have hlen := h.len_le
  have hoff := h.off_le
  have hheld := h.held
  have hhead := outbufHead_length h
  unfold outbufCompact
  split
  next hzero => exact ⟨h, hzero, by rw [outbufPending, hzero, Nat.sub_zero], rfl, rfl⟩
  next hne =>
    have hle : outbufPending b ≤ b.cap := by
      unfold outbufPending
      omega
    have hfit : 0 + (outbufHead b).length ≤ b.buf.length := by omega
    refine ⟨⟨Nat.zero_le _, hle, ?_⟩, rfl, rfl, rfl, ?_⟩
    · dsimp only
      split
      next => exact (length_splice hfit).trans hheld
      next => exact hheld
    · show window _ 0 (outbufPending b) = outbufHead b
      by_cases hp : outbufPending b = 0
      · rw [hp, window_zero, List.length_eq_zero_iff.mp (hhead.trans hp)]
      · rw [if_pos hp, ← hhead, window_splice (Nat.zero_le _)]

/-- A copy behind the bytes that are there adds what was copied to them. -/
theorem outbufHead_append (h : b.Sound) (hfit : b.len + p.length ≤ b.cap) (hn : n ≤ p.length) :
    OutBuf.Sound { b with buf := splice b.buf b.len p, len := b.len + n } ∧
      outbufHead { b with buf := splice b.buf b.len p, len := b.len + n } = outbufHead b ++ p.take n := by
  have hoff := h.off_le
  have hheld := h.held
  refine ⟨⟨hoff.trans (Nat.le_add_right _ _), (Nat.add_le_add_left hn _).trans hfit,
    (length_splice (by omega)).trans hheld⟩, ?_⟩
  have hpend : b.len + n - b.off = outbufPending b + n := by
    unfold outbufPending
    omega
  have hend : b.off + outbufPending b = b.len := by
    unfold outbufPending
    omega
  have htake : window (splice b.buf b.len p) b.len n = p.take n := by
    have hall : window (splice b.buf b.len p) b.len p.length = p := window_splice (by omega)
    calc window (splice b.buf b.len p) b.len n
        = (window (splice b.buf b.len p) b.len p.length).take n := by
          rw [window, window, List.take_take, Nat.min_eq_left hn]
      _ = p.take n := by rw [hall]
  show window (splice b.buf b.len p) b.off (b.len + n - b.off) = _
  rw [hpend, window_append, hend, htake, window_splice_before hend.le (by omega), outbufHead]

/-- A queue that has room for the bytes takes them, and one that has not keeps what it had. -/
theorem outbufQueue_kept (h : b.Sound) (p : Bytes) : (outbufQueue b p).1.Sound ∧
    (outbufQueue b p).1.cap = b.cap ∧ ((outbufQueue b p).2 = true ↔ outbufPending b + p.length ≤ b.cap) ∧
    outbufHead (outbufQueue b p).1 = if (outbufQueue b p).2 then outbufHead b ++ p else outbufHead b := by
  obtain ⟨hsound, -, hlen, hcap, hhead⟩ := outbufCompact_kept h
  have hle := hsound.len_le
  unfold outbufQueue
  split
  next hbig => exact ⟨h, rfl, ⟨fun hf => Bool.noConfusion hf, fun hf => by omega⟩, rfl⟩
  next hsmall =>
    dsimp only
    split
    next hfull => exact ⟨hsound, hcap, ⟨fun hf => Bool.noConfusion hf, fun hf => by omega⟩, hhead⟩
    next hroom =>
      obtain ⟨hs, hh⟩ := outbufHead_append (n := p.length) hsound (by omega) (Nat.le_refl _)
      rw [List.take_length, hhead] at hh
      exact ⟨hs, hcap, ⟨fun _ => by omega, fun _ => rfl⟩, hh⟩

theorem outbufProduce_kept (h : b.Sound) (hp : p.length ≤ (outbufTail b).2) (hn : n ≤ p.length) :
    (outbufCommit (outbufWrite (outbufTail b).1 p) n).Sound ∧
      (outbufCommit (outbufWrite (outbufTail b).1 p) n).cap = b.cap ∧
      outbufHead (outbufCommit (outbufWrite (outbufTail b).1 p) n) = outbufHead b ++ p.take n := by
  obtain ⟨hsound, -, -, hcap, hhead⟩ := outbufCompact_kept h
  have hroom : p.length ≤ (outbufCompact b).cap - (outbufCompact b).len := hp
  have hle := hsound.len_le
  obtain ⟨hs, hh⟩ := outbufHead_append (n := n) hsound (by omega) hn
  have hcommit : outbufCommit (outbufWrite (outbufTail b).1 p) n =
      { outbufCompact b with
          buf := splice (outbufCompact b).buf (outbufCompact b).len p, len := (outbufCompact b).len + n } := by
    unfold outbufCommit outbufWrite outbufTail
    dsimp only
    rw [if_neg (by omega)]
  rw [hcommit, ← hhead]
  exact ⟨hs, hcap, hh⟩

theorem outbufConsume_kept (h : b.Sound) (n : Nat) : (outbufConsume b n).Sound ∧
    (outbufConsume b n).cap = b.cap ∧
    outbufHead (outbufConsume b n) = (outbufHead b).drop (min n (outbufPending b)) := by
  have hoff := h.off_le
  have htaken : (if outbufPending b < n then outbufPending b else n) = min n (outbufPending b) := by
    split
    next hlt => exact (Nat.min_eq_right hlt.le).symm
    next hge => exact (Nat.min_eq_left (Nat.not_lt.mp hge)).symm
  have hle : min n (outbufPending b) ≤ outbufPending b := Nat.min_le_right _ _
  have hdrop : (outbufHead b).drop (min n (outbufPending b)) =
      window b.buf (b.off + min n (outbufPending b)) (outbufPending b - min n (outbufPending b)) :=
    drop_window _ _ _ _
  rw [hdrop]
  unfold outbufConsume
  dsimp only
  rw [htaken]
  generalize min n (outbufPending b) = taken at hle
  unfold outbufPending at hle ⊢
  split
  next hend =>
    refine ⟨⟨Nat.le_refl _, Nat.zero_le _, h.held⟩, rfl, ?_⟩
    rw [show b.len - b.off - taken = 0 by omega, window_zero]
    exact window_zero _ _
  next hmore =>
    refine ⟨⟨by dsimp only; omega, h.len_le, h.held⟩, rfl, ?_⟩
    rw [Nat.sub_sub]
    rfl

end Calls

theorem OutRun.sound {storage : Bytes} {b : OutBuf} {accepted : Bytes} {consumed : Nat}
    (h : OutRun storage b accepted consumed) : b.Sound ∧ b.cap = storage.length ∧ consumed ≤ accepted.length ∧
    outbufHead b = accepted.drop consumed := by
  induction h with
  | init => exact ⟨⟨Nat.le_refl _, Nat.zero_le _, rfl⟩, rfl, Nat.le_refl _, rfl⟩
  | @queue b accepted consumed p _ ih =>
    obtain ⟨hs, hcap, hle, hhead⟩ := ih
    obtain ⟨hs', hcap', -, hhead'⟩ := outbufQueue_kept hs p
    refine ⟨hs', hcap'.trans hcap, ?_, ?_⟩
    · split
      next => exact hle.trans (by rw [List.length_append]; omega)
      next => exact hle
    · rw [hhead']
      split
      next => rw [hhead, List.drop_append_of_le_length hle]
      next => exact hhead
  | @produce b accepted consumed p n _ hp hn ih =>
    obtain ⟨hs, hcap, hle, hhead⟩ := ih
    obtain ⟨hs', hcap', hhead'⟩ := outbufProduce_kept hs hp hn
    refine ⟨hs', hcap'.trans hcap, hle.trans (by rw [List.length_append]; omega), ?_⟩
    rw [hhead', hhead, List.drop_append_of_le_length hle]
  | @consume b accepted consumed n _ ih =>
    obtain ⟨hs, hcap, hle, hhead⟩ := ih
    obtain ⟨hs', hcap', hhead'⟩ := outbufConsume_kept hs n
    have hlen := outbufHead_length hs
    rw [hhead, List.length_drop] at hlen
    refine ⟨hs', hcap'.trans hcap, by omega, ?_⟩
    rw [hhead', hhead, List.drop_drop]
  | @compact b accepted consumed _ ih =>
    obtain ⟨hs, hcap, hle, hhead⟩ := ih
    obtain ⟨hs', -, -, hcap', hhead'⟩ := outbufCompact_kept hs
    exact ⟨hs', hcap'.trans hcap, hle, hhead'.trans hhead⟩

/-- The buffer shows the bytes that went in and did not come out yet, and has room for the others. -/
theorem outbuf_fifo {storage : Bytes} {b : OutBuf} {accepted : Bytes} {consumed : Nat}
    (h : OutRun storage b accepted consumed) :
    (b.off ≤ b.len ∧ b.len ≤ b.cap ∧ b.cap = storage.length) ∧
    (consumed ≤ accepted.length ∧ outbufHead b = accepted.drop consumed) ∧
    ∀ p, ((outbufQueue b p).2 = true ↔ outbufPending b + p.length ≤ b.cap) ∧
      ((outbufQueue b p).2 = false → outbufHead (outbufQueue b p).1 = outbufHead b) := by
  obtain ⟨hs, hcap, hle, hhead⟩ := h.sound
  refine ⟨⟨hs.off_le, hs.len_le, hcap⟩, ⟨hle, hhead⟩, fun p => ?_⟩
  obtain ⟨-, -, hroom, hkept⟩ := outbufQueue_kept hs p
  refine ⟨hroom, fun hf => ?_⟩
  rw [hkept, hf]
  rfl

/-- A partial write makes room for a second record. -/
theorem outbuf_fifo_reuse : ∃ b, OutRun [0, 0, 0, 0] b [1, 2, 3, 4, 5] 2 ∧ outbufHead b = [3, 4, 5] := by
  have h := ((OutRun.init : OutRun [0, 0, 0, 0] _ _ _).queue [1, 2, 3]).consume 2 |>.queue [4, 5]
  exact ⟨_, h, (outbuf_fifo h).2.1.2⟩

end Qanat
