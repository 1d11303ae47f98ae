import Qanat.General.Bisect
import Qanat.General.Splice
import Mathlib.Data.List.Perm.Basic
import Mathlib.Order.Basic

namespace BinaryInsertion

open Splice

variable {α β κ : Type}

section Program

variable (before : α → α → Option Bool)

/-- Where `key` goes among the first `i` entries: behind those that `before` puts no later. -/
def place (v : List α) (key : α) (i : Nat) : Option Nat :=
  Bisect.search (fun mid => v[mid]?.bind fun x => (before x key).map not) i 0 i

/-- Moves the entry at `i` to its place among those before it. -/
def round (v : List α) (i : Nat) : Option (List α) :=
  v[i]?.bind fun key => (place before v key i).map fun lo =>
    (if lo = i then v else splice v (lo + 1) (window v lo (i - lo))).set lo key

def sortFrom : Nat → Nat → List α → Option (List α)
  | 0, _, v => some v
  | fuel + 1, i, v => if i < v.length then (round before v i).bind (sortFrom fuel (i + 1)) else some v

/-- Binary insertion sort in place. -/
def sort (v : List α) : Option (List α) :=
  sortFrom before v.length 1 v

end Program

section Keyed

variable [LinearOrder κ] {key : α → κ} {before : α → α → Option Bool}

/-- A list in order, and what became of it when `x` was put behind all that are no greater. -/
theorem insert_sorted {p q : List α} {x : α} (h : (p ++ q).Pairwise fun a b => key a ≤ key b)
    (hp : ∀ a ∈ p, key a ≤ key x) (hq : ∀ a ∈ q, key x < key a) :
    (p ++ x :: q).Pairwise fun a b => key a ≤ key b := by
  obtain ⟨hpp, hqq, hpq⟩ := List.pairwise_append.mp h
  refine List.pairwise_append.mpr ⟨hpp, List.pairwise_cons.mpr ⟨fun a ha => (hq a ha).le, hqq⟩, ?_⟩
  intro a ha b hb
  rcases List.mem_cons.mp hb with rfl | hb
  · exact hp a ha
  · exact hpq a ha b hb

/-- It comes last among those of its key. -/
theorem insert_stable {p q : List α} {x : α} (hq : ∀ a ∈ q, key x < key a) (k : κ) :
    (p ++ x :: q).filter (fun a => decide (key a = k)) = (p ++ q ++ [x]).filter fun a => decide (key a = k) := by
  by_cases hk : key x = k
  · have hnone : q.filter (fun a => decide (key a = k)) = [] := by
      rw [List.filter_eq_nil_iff]
      intro a ha
      have hlt := hq a ha
      rw [hk] at hlt
      simpa using hlt.ne'
    simp [hk, hnone]
  · simp [hk]

/-- `out` is `v` in the order of its keys, and entries of one key keep theirs. -/
structure Ranked (key : α → κ) (v out : List α) : Prop where
  perm : out.Perm v
  sorted : out.Pairwise fun a b => key a ≤ key b
  stable : ∀ k, out.filter (fun a => decide (key a = k)) = v.filter fun a => decide (key a = k)

theorem place_spec {p : List α} {x : α} (rest : List α) (h : p.Pairwise fun a b => key a ≤ key b)
    (hbefore : ∀ a ∈ p, before a x = some (decide (key a ≤ key x))) :
    ∃ l q, p = l ++ q ∧ place before (p ++ rest) x p.length = some l.length ∧
      (∀ a ∈ l, key a ≤ key x) ∧ ∀ a ∈ q, key x < key a := by
  classical
  have hget : ∀ j (hj : j < p.length), (p ++ rest)[j]? = some p[j] := by
    intro j hj
    rw [List.getElem?_append_left hj, List.getElem?_eq_getElem hj]
  obtain ⟨lo, hlo, -, hle, hbelow, hat⟩ := Bisect.search_spec
    (fun mid => (p ++ rest)[mid]?.bind fun y => (before y x).map not)
    (fun j => ∀ hj : j < p.length, key x < key p[j])
    (by
      intro i j hij hi hj
      rcases Nat.lt_or_eq_of_le hij with hlt | rfl
      · exact lt_of_lt_of_le (hi (by omega)) (List.pairwise_iff_getElem.mp h i j (by omega) hj hlt)
      · exact hi hj)
    (Nat.le_add_left _ _) (Nat.zero_le _)
    (by
      intro j _ hj
      rw [hget j hj, Option.bind_some, hbefore _ (List.getElem_mem hj)]
      rcases le_or_gt (key p[j]) (key x) with hle | hlt
      · simp [hj, hle]
      · simp [hj, hlt])
  refine ⟨p.take lo, p.drop lo, (List.take_append_drop lo p).symm, ?_, ?_, ?_⟩
  · rw [List.length_take_of_le hle]
    exact hlo
  · intro a ha
    obtain ⟨j, hj, rfl⟩ := List.mem_take_iff_getElem.mp ha
    have hnot := hbelow j (Nat.zero_le j) (by omega)
    simp only [not_forall, not_lt] at hnot
    exact hnot.2
  · intro a ha
    obtain ⟨j, hj, rfl⟩ := List.mem_drop_iff_getElem.mp ha
    have hfirst : key x < key p[lo] := hat (by omega) (by omega)
    rcases Nat.eq_zero_or_pos j with rfl | hpos
    · exact hfirst
    · exact lt_of_lt_of_le hfirst (List.pairwise_iff_getElem.mp h lo (lo + j) (by omega) (by omega) (by omega))

/-- Moving the entries from a place on one further, and storing the entry behind them there. -/
theorem shift_spec (l q rest : List α) (x : α) :
    (if l.length = (l ++ q).length then l ++ q ++ x :: rest
      else splice (l ++ q ++ x :: rest) (l.length + 1)
        (window (l ++ q ++ x :: rest) l.length ((l ++ q).length - l.length))).set l.length x = l ++ x :: q ++ rest := by
  cases q with
  | nil => simp
  | cons y q =>
    have hwin : window (l ++ y :: q ++ x :: rest) l.length ((l ++ y :: q).length - l.length) = y :: q := by
      simp [window]
    rw [if_neg (by simp), hwin, splice]
    have htake : (l ++ y :: q ++ x :: rest).take (l.length + 1) = l ++ [y] := by
      rw [show l ++ y :: q ++ x :: rest = (l ++ [y]) ++ (q ++ x :: rest) by simp]
      exact List.take_left' (by simp)
    have hdrop : (l ++ y :: q ++ x :: rest).drop (l.length + 1 + (y :: q).length) = rest := by
      rw [show l ++ y :: q ++ x :: rest = (l ++ y :: q ++ [x]) ++ rest by simp]
      exact List.drop_left' (by simp; omega)
    rw [htake, hdrop]
    simp

/-- A round splits the entries before it at the place of the next one, and puts it there. -/
theorem round_spec {p : List α} {x : α} (rest : List α) (h : p.Pairwise fun a b => key a ≤ key b)
    (hbefore : ∀ a ∈ p, before a x = some (decide (key a ≤ key x))) :
    ∃ l q, p = l ++ q ∧ round before (p ++ x :: rest) p.length = some (l ++ x :: q ++ rest) ∧
      (∀ a ∈ l, key a ≤ key x) ∧ ∀ a ∈ q, key x < key a := by
  obtain ⟨l, q, rfl, hplace, hl, hq⟩ := place_spec (x :: rest) h hbefore
  refine ⟨l, q, rfl, ?_, hl, hq⟩
  have hkey : (l ++ q ++ x :: rest)[(l ++ q).length]? = some x := by simp
  unfold round
  rw [hkey, Option.bind_some, hplace, Option.map_some]
  rw [shift_spec]

theorem sortFrom_spec (fuel : Nat) {p rest : List α} (hfuel : rest.length ≤ fuel)
    (h : p.Pairwise fun a b => key a ≤ key b)
    (hbefore : ∀ a ∈ p ++ rest, ∀ b ∈ p ++ rest, before a b = some (decide (key a ≤ key b))) :
    ∃ out, sortFrom before fuel p.length (p ++ rest) = some out ∧ Ranked key (p ++ rest) out := by
  induction fuel generalizing p rest with
  | zero =>
    obtain rfl : rest = [] := List.eq_nil_of_length_eq_zero (Nat.le_zero.mp hfuel)
    exact ⟨p ++ [], rfl, .refl _, by simpa using h, fun _ => rfl⟩
  | succ fuel ih =>
    unfold sortFrom
    cases rest with
    | nil =>
      rw [if_neg (by simp)]
      exact ⟨p ++ [], rfl, .refl _, by simpa using h, fun _ => rfl⟩
    | cons x rest =>
      rw [if_pos (by simp)]
      obtain ⟨l, q, rfl, hround, hl, hq⟩ := round_spec rest h
        (fun a ha => hbefore a (List.mem_append_left _ ha) x (by simp))
      rw [hround, Option.bind_some]
      have hperm : (l ++ x :: q ++ rest).Perm (l ++ q ++ x :: rest) := by
        have hmid : (q ++ x :: rest).Perm (x :: (q ++ rest)) := List.perm_middle
        simpa using hmid.symm.append_left l
      have hsorted := insert_sorted h hl hq
      obtain ⟨out, hout, hranked⟩ := @ih (l ++ x :: q) rest (by simpa using hfuel) hsorted
        (fun a ha b hb => hbefore a (hperm.mem_iff.mp ha) b (hperm.mem_iff.mp hb))
      refine ⟨out, ?_, hranked.perm.trans hperm, hranked.sorted, fun k => ?_⟩
      · rw [← hout]
        simp [Nat.add_assoc]
      · rw [hranked.stable k, List.filter_append, insert_stable hq k, ← List.filter_append]
        simp

/-- The sort ends, and ranks. -/
theorem sort_spec {v : List α} (hbefore : ∀ a ∈ v, ∀ b ∈ v, before a b = some (decide (key a ≤ key b))) :
    ∃ out, sort before v = some out ∧ Ranked key v out := by
  unfold sort
  cases v with
  | nil => exact ⟨[], rfl, .refl _, .nil, fun _ => rfl⟩
  | cons x rest =>
    exact sortFrom_spec (p := [x]) (rest.length + 1) (Nat.le_succ _) (List.pairwise_singleton _ _) hbefore

end Keyed

section Map

variable {before : α → α → Option Bool} {before' : β → β → Option Bool} {f : α → β}

theorem place_map {v : List α} {key : α} (h : ∀ a ∈ v, before' (f a) (f key) = before a key) (i : Nat) :
    place before' (v.map f) (f key) i = place before v key i := by
  have htest : (fun mid : Nat => (v.map f)[mid]?.bind fun x => (before' x (f key)).map not) =
      fun mid : Nat => v[mid]?.bind fun x => (before x key).map not := by
    funext mid
    rw [List.getElem?_map]
    cases hv : v[mid]? with
    | none => rfl
    | some a =>
      rw [Option.map_some, Option.bind_some, Option.bind_some, h a (List.mem_of_getElem? hv)]
  unfold place
  rw [htest]

theorem round_map {v : List α} (h : ∀ a ∈ v, ∀ b ∈ v, before' (f a) (f b) = before a b) (i : Nat) :
    round before' (v.map f) i = (round before v i).map (List.map f) := by
  unfold round
  rw [List.getElem?_map]
  cases hv : v[i]? with
  | none => rfl
  | some key =>
    rw [Option.map_some, Option.bind_some, Option.bind_some,
      place_map (fun a ha => h a ha key (List.mem_of_getElem? hv)), Option.map_map]
    congr 1
    funext lo
    by_cases hlo : lo = i
    · simp [hlo, List.map_set]
    · simp [hlo, List.map_set, splice, window, List.map_take, List.map_drop]

theorem mem_of_round {v w : List α} {i : Nat} (h : round before v i = some w) {a : α} (ha : a ∈ w) : a ∈ v := by
  unfold round at h
  obtain ⟨key, hkey, h⟩ := Option.bind_eq_some_iff.mp h
  obtain ⟨lo, -, rfl⟩ := Option.map_eq_some_iff.mp h
  rcases List.mem_or_eq_of_mem_set ha with ha | rfl
  · split_ifs at ha
    · exact ha
    · simp only [splice, window, List.mem_append] at ha
      rcases ha with (ha | ha) | ha
      · exact List.mem_of_mem_take ha
      · exact List.mem_of_mem_drop (List.mem_of_mem_take ha)
      · exact List.mem_of_mem_drop ha
  · exact List.mem_of_getElem? hkey

theorem sortFrom_map (fuel i : Nat) {v : List α} (h : ∀ a ∈ v, ∀ b ∈ v, before' (f a) (f b) = before a b) :
    sortFrom before' fuel i (v.map f) = (sortFrom before fuel i v).map (List.map f) := by
  induction fuel generalizing i v with
  | zero => rfl
  | succ fuel ih =>
    unfold sortFrom
    rw [List.length_map]
    by_cases hi : i < v.length
    · rw [if_pos hi, if_pos hi, round_map h]
      cases hr : round before v i with
      | none => rfl
      | some w =>
        rw [Option.map_some, Option.bind_some, Option.bind_some]
        exact ih (i + 1) fun a ha b hb => h a (mem_of_round hr ha) b (mem_of_round hr hb)
    · rw [if_neg hi, if_neg hi]
      rfl

/-- Sorting names by what they stand for is sorting what they stand for. -/
theorem sort_map {v : List α} (h : ∀ a ∈ v, ∀ b ∈ v, before' (f a) (f b) = before a b) :
    sort before' (v.map f) = (sort before v).map (List.map f) := by
  unfold sort
  rw [List.length_map]
  exact sortFrom_map v.length 1 h

end Map

end BinaryInsertion
