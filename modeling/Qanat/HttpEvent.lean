import Qanat.HttpProbe
import Mathlib.Data.Finset.Lattice.Lemmas
import Mathlib.Algebra.Order.Ring.Nat

namespace Qanat

/-- The `QN_HTTP_FACT_*` flags. -/
inductive HttpFact
  | headers
  | body
  | done
  | informational
  | traceColo
  | cfRay
  | serverCloudflare
  | reset
  | trailers
  deriving DecidableEq, Repr

/-- `qn_http_event`; an empty colo is four zero bytes. -/
structure HttpEvent where
  flags : Finset HttpFact
  streamId : Nat
  responseIndex : Nat
  bodyBytes : Nat
  status : Nat
  colo : Bytes
  deriving DecidableEq

namespace HttpEvent

/-- An event after `memset`. -/
def empty : HttpEvent :=
  ⟨∅, 0, 0, 0, 0, []⟩

def flag (e : HttpEvent) (f : HttpFact) : HttpEvent :=
  { e with flags := insert f e.flags }

/-- An event of a response with its status. -/
def stamp (e : HttpEvent) (index status : Nat) : HttpEvent :=
  { e with responseIndex := index, status := status }

def count (e : HttpEvent) (n : Nat) : HttpEvent :=
  { e with bodyBytes := e.bodyBytes + n }

def edge (e : HttpEvent) (colo : Bytes) : HttpEvent :=
  { e with colo := colo }

/-- Two events told one after the other: what was said last stands where it was said at all. -/
def merge (a b : HttpEvent) : HttpEvent where
  flags := a.flags ∪ b.flags
  streamId := if b.streamId = 0 then a.streamId else b.streamId
  responseIndex := if b.responseIndex = 0 then a.responseIndex else b.responseIndex
  bodyBytes := a.bodyBytes + b.bodyBytes
  status := if b.status = 0 then a.status else b.status
  colo := if b.colo = [] then a.colo else b.colo

/-- What a list of events says when read in order. -/
def total (es : List HttpEvent) : HttpEvent :=
  es.foldl merge empty

@[simp] theorem merge_empty (a : HttpEvent) : a.merge empty = a := by
  simp [merge, empty]

@[simp] theorem empty_merge (a : HttpEvent) : empty.merge a = a := by
  cases a with
  | mk flags streamId responseIndex bodyBytes status colo =>
    simp only [merge, empty, Finset.empty_union, Nat.zero_add]
    congr 1
    all_goals
      split
      next h => exact h.symm
      next => rfl

theorem merge_assoc (a b c : HttpEvent) : (a.merge b).merge c = a.merge (b.merge c) := by
  simp only [merge, Finset.union_assoc, Nat.add_assoc]
  congr 1
  all_goals
    split
    next => rfl
    next => simp

@[simp] theorem merge_flag (a b : HttpEvent) (f : HttpFact) : a.merge (b.flag f) = (a.merge b).flag f := by
  unfold merge flag
  dsimp only
  rw [Finset.union_insert]

@[simp] theorem merge_count (a b : HttpEvent) (n : Nat) : a.merge (b.count n) = (a.merge b).count n := by
  unfold merge count
  dsimp only
  rw [Nat.add_assoc]

theorem merge_stamp (a b : HttpEvent) {index status : Nat} (hi : index ≠ 0) (hs : status ≠ 0) :
    a.merge (b.stamp index status) = (a.merge b).stamp index status := by
  unfold merge stamp
  dsimp only
  rw [if_neg hi, if_neg hs]

theorem merge_edge (a b : HttpEvent) {colo : Bytes} (hc : colo ≠ []) :
    a.merge (b.edge colo) = (a.merge b).edge colo := by
  unfold merge edge
  dsimp only
  rw [if_neg hc]

theorem foldl_merge (a : HttpEvent) (es : List HttpEvent) : es.foldl merge a = a.merge (total es) := by
  unfold total
  induction es generalizing a with
  | nil => simp
  | cons e es ih =>
    rw [List.foldl_cons, List.foldl_cons, ih, ih (empty.merge e), merge_assoc, empty_merge]

@[simp] theorem total_nil : total [] = empty := rfl

theorem total_cons (e : HttpEvent) (es : List HttpEvent) : total (e :: es) = e.merge (total es) := by
  conv_lhs => unfold total
  rw [List.foldl_cons, foldl_merge, empty_merge]

theorem total_flags (es : List HttpEvent) (f : HttpFact) : f ∈ (total es).flags ↔ ∃ e ∈ es, f ∈ e.flags := by
  induction es with
  | nil => simp [empty]
  | cons e es ih => simp [total_cons, merge, ih]

theorem total_bodyBytes (es : List HttpEvent) : (total es).bodyBytes = (es.map bodyBytes).sum := by
  induction es with
  | nil => rfl
  | cons e es ih => simp [total_cons, merge, ih]

/-- The last of the values that is not the zero one. -/
def lastSaid {α : Type} [DecidableEq α] (zero : α) : List α → α
  | [] => zero
  | x :: l => if lastSaid zero l = zero then x else lastSaid zero l

theorem total_status (es : List HttpEvent) : (total es).status = lastSaid 0 (es.map status) := by
  induction es with
  | nil => rfl
  | cons e es ih => rw [total_cons, List.map_cons, lastSaid, ← ih, merge]

theorem total_colo (es : List HttpEvent) : (total es).colo = lastSaid [] (es.map colo) := by
  induction es with
  | nil => rfl
  | cons e es ih => rw [total_cons, List.map_cons, lastSaid, ← ih, merge]

end HttpEvent

end Qanat
