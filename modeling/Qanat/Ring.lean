import Qanat.General.Smear
import Qanat.General.Transition

namespace Qanat

/-- `v |= v >> m`. -/
def smearBy (v m : UInt32) : UInt32 :=
  v ||| v >>> m

def pow2Ceil (value : UInt32) : Option UInt32 :=
  if value = 0 ∨ (1 : UInt32) <<< 31 < value then none
  else if value < 2 then some 2
  else some (smearBy (smearBy (smearBy (smearBy (smearBy (value - 1) 1) 2) 4) 8) 16 + 1)

/-- `qn_ring` with elements of one type in place of byte strings of one size. -/
structure Ring (α : Type) where
  tail : UInt32
  tailCache : UInt32
  head : UInt32
  headCache : UInt32
  buf : UInt32 → α
  mask : UInt32
  dropped : Nat

/-- `qn_ring_init` on an allocated buffer. -/
def ringInit {α : Type} (cap : UInt32) (buf : UInt32 → α) : Option (Ring α) :=
  (pow2Ceil cap).map fun cap => ⟨0, 0, 0, 0, buf, cap - 1, 0⟩

def Ring.setCell {α : Type} (r : Ring α) (i : UInt32) (x : α) : Ring α :=
  { r with buf := fun j => if j = i then x else r.buf j }

/-- `qn_ring_push` between two of its operations: before the load of `head`, in the middle of the
copy, and before the store of `tail`. -/
inductive PushPc (α : Type)
  | idle
  | reload (item : α) (tail : UInt32)
  | writing (item : α) (tail : UInt32)
  | written (item : α) (tail : UInt32)

/-- `qn_ring_pop_batch` between two of its operations; `acc` is what has been copied out. -/
inductive PopPc (α : Type)
  | idle
  | reload (head max : UInt32)
  | copying (head n : UInt32) (acc : List α)

/-- One producer and one consumer. Every value ever stored to `tail` and `head` is kept as a message;
a side's load of the other's index returns any message not older than the last it has seen. -/
structure RingSys (α : Type) where
  ring : Ring α
  tails : List UInt32
  heads : List UInt32
  headSeen : Nat
  tailSeen : Nat
  prod : PushPc α
  cons : PopPc α
  /-- The items whose push has returned true. -/
  pushed : List α
  popped : List α
  /-- For every push that has returned false, how many items it saw in the ring. -/
  refused : List Nat

inductive RingAct (α : Type)
  | len (j : Nat)
  | push (item : α)
  | loadHead (j : Nat)
  | scribble (x : α)
  | finishWrite
  | storeTail
  | pop (max : UInt32)
  | loadTail (j : Nat)
  | copy
  | storeHead

def popCount (headCache head max : UInt32) : UInt32 :=
  let n := headCache - head
  if max < n then max else n

def ringStep {α : Type} (c : RingSys α) : RingAct α → Option (RingSys α)
  | .len j =>
    match c.prod, c.heads[j]? with
    | .idle, some _ => if j < c.headSeen then none else some { c with headSeen := j }
    | _, _ => none
  | .push item =>
    match c.prod with
    | .idle =>
      if c.ring.mask < c.ring.tail - c.ring.tailCache then some { c with prod := .reload item c.ring.tail }
      else some { c with prod := .writing item c.ring.tail }
    | _ => none
  | .loadHead j =>
    match c.prod, c.heads[j]? with
    | .reload item tail, some fresh =>
      if j < c.headSeen then none
      else
        let c := { c with headSeen := j, ring := { c.ring with tailCache := fresh } }
        if c.ring.mask < tail - fresh then
          some { c with
            ring := { c.ring with dropped := c.ring.dropped + 1 }
            refused := c.refused ++ [(tail - fresh).toNat]
            prod := .idle }
        else some { c with prod := .writing item tail }
    | _, _ => none
  | .scribble x =>
    match c.prod with
    | .writing _ tail => some { c with ring := c.ring.setCell (tail &&& c.ring.mask) x }
    | _ => none
  | .finishWrite =>
    match c.prod with
    | .writing item tail =>
      some { c with ring := c.ring.setCell (tail &&& c.ring.mask) item, prod := .written item tail }
    | _ => none
  | .storeTail =>
    match c.prod with
    | .written item tail =>
      some { c with
        ring := { c.ring with tail := tail + 1 }
        tails := c.tails ++ [tail + 1]
        pushed := c.pushed ++ [item]
        prod := .idle }
    | _ => none
  | .pop max =>
    match c.cons with
    | .idle =>
      if c.ring.head = c.ring.headCache then some { c with cons := .reload c.ring.head max }
      else some { c with cons := .copying c.ring.head (popCount c.ring.headCache c.ring.head max) [] }
    | _ => none
  | .loadTail j =>
    match c.cons, c.tails[j]? with
    | .reload head max, some fresh =>
      if j < c.tailSeen then none
      else
        let c := { c with tailSeen := j, ring := { c.ring with headCache := fresh } }
        if head = fresh then some { c with cons := .idle }
        else some { c with cons := .copying head (popCount fresh head max) [] }
    | _, _ => none
  | .copy =>
    match c.cons with
    | .copying head n acc =>
      if acc.length < n.toNat then
        let cell := (head + UInt32.ofNat acc.length) &&& c.ring.mask
        some { c with cons := .copying head n (acc ++ [c.ring.buf cell]) }
      else none
    | _ => none
  | .storeHead =>
    match c.cons with
    | .copying head n acc =>
      if acc.length < n.toNat then none
      else
        some { c with
          ring := { c.ring with head := head + n }
          heads := c.heads ++ [head + n]
          popped := c.popped ++ acc
          cons := .idle }
    | _ => none

/-- `qn_ring_len` on the producer's side, after its load of `head`. -/
def ringLen {α : Type} (c : RingSys α) : UInt32 :=
  c.ring.tail - c.heads[c.headSeen]?.getD 0

def ringStart {α : Type} (r : Ring α) : RingSys α :=
  ⟨r, [r.tail], [r.head], 0, 0, .idle, .idle, [], [], []⟩

/-- The cell a push is writing. -/
def RingSys.writes {α : Type} (c : RingSys α) : Option UInt32 :=
  match c.prod with
  | .writing _ tail => some (tail &&& c.ring.mask)
  | .written _ tail => some (tail &&& c.ring.mask)
  | _ => none

/-- The cell the next copy of a pop reads. -/
def RingSys.reads {α : Type} (c : RingSys α) : Option UInt32 :=
  match c.cons with
  | .copying head n acc =>
    if acc.length < n.toNat then some ((head + UInt32.ofNat acc.length) &&& c.ring.mask) else none
  | _ => none

/-- Everything taken out of the ring, a batch under way included. -/
def RingSys.taken {α : Type} (c : RingSys α) : List α :=
  match c.cons with
  | .copying _ _ acc => c.popped ++ acc
  | _ => c.popped

theorem smearBy_toNat (v m : UInt32) (hm : m.toNat < 32) :
    (smearBy v m).toNat = v.toNat ||| v.toNat >>> m.toNat := by
  unfold smearBy
  rw [UInt32.toNat_or, UInt32.toNat_shiftRight, Nat.mod_eq_of_lt hm]

theorem pow2Ceil_spec {value cap : UInt32} (h : pow2Ceil value = some cap) :
    value.toNat ≤ cap.toNat ∧ ∃ k, 1 ≤ k ∧ k ≤ 31 ∧ cap.toNat = 2 ^ k := by
  unfold pow2Ceil at h
  split at h
  next => simp at h
  next hrange =>
    push Not at hrange
    have hle : value.toNat ≤ ((1 : UInt32) <<< 31).toNat := UInt32.le_iff_toNat_le.mp (UInt32.not_lt.mp hrange.2)
    have hlimit : ((1 : UInt32) <<< 31).toNat = 2 ^ 31 := by decide
    rw [hlimit] at hle
    split at h
    next hsmall =>
      obtain rfl := Option.some.inj h
      exact ⟨Nat.le_of_lt (UInt32.lt_iff_toNat_lt.mp hsmall), 1, by decide, by decide, rfl⟩
    next hlarge =>
      have hlarge : 2 ≤ value.toNat := UInt32.le_iff_toNat_le.mp (UInt32.not_lt.mp hlarge)
      have hsub : (value - 1).toNat = value.toNat - 1 :=
        UInt32.toNat_sub_of_le _ _ (UInt32.le_iff_toNat_le.mpr (by change 1 ≤ _; omega))
      have hone := Smear.filled_one (v := value.toNat - 1) (by omega)
      have hlog : Nat.log2 (value.toNat - 1) < 31 := (Nat.log2_lt (by omega)).mpr (by omega)
      have hpow : 2 ^ (Nat.log2 (value.toNat - 1) + 1) ≤ 2 ^ 31 := Nat.pow_le_pow_right (by decide) (by omega)
      have hall := hone.double.double.double.double.double.eq (by omega)
      have hsmear : (smearBy (smearBy (smearBy (smearBy (smearBy (value - 1) 1) 2) 4) 8) 16).toNat =
          2 ^ (Nat.log2 (value.toNat - 1) + 1) - 1 := by
        rw [smearBy_toNat _ _ (by decide), smearBy_toNat _ _ (by decide), smearBy_toNat _ _ (by decide),
          smearBy_toNat _ _ (by decide), smearBy_toNat _ _ (by decide), hsub]
        exact hall
      obtain rfl := Option.some.inj h
      have hcap : (smearBy (smearBy (smearBy (smearBy (smearBy (value - 1) 1) 2) 4) 8) 16 + 1).toNat =
          2 ^ (Nat.log2 (value.toNat - 1) + 1) := by
        rw [UInt32.toNat_add, hsmear]
        change (2 ^ (Nat.log2 (value.toNat - 1) + 1) - 1 + 1) % 2 ^ 32 = _
        have hpos : 0 < 2 ^ (Nat.log2 (value.toNat - 1) + 1) := Nat.pow_pos (by decide)
        rw [Nat.sub_add_cancel hpos]
        exact Nat.mod_eq_of_lt (by omega)
      have hbelow := hone.1
      exact ⟨by omega, Nat.log2 (value.toNat - 1) + 1, by omega, by omega, hcap⟩

end Qanat
