import Qanat.TopK

namespace Qanat

section Drain

variable {α : Type} {cmp : α → α → Int} {fuel n i : Nat} {f : Nat → α}

/-- On fewer than `2 ^ 31` slots no child is past the end of the words. -/
theorem siftDown_eq (hn : n < 2 ^ 31) (hi : i < n) (hfuel : n ≤ i + fuel) :
    siftDown cmp n fuel f i = some (Heap.siftDown (worse cmp) f n i) := by
  induction fuel generalizing f i with
  | zero => omega
  | succ fuel ih =>
    have hl : (2 * i + 1) % 2 ^ 32 = 2 * i + 1 := Nat.mod_eq_of_lt (by omega)
    have hr : (2 * i + 1 + 1) % 2 ^ 32 = 2 * i + 2 := Nat.mod_eq_of_lt (by omega)
    unfold siftDown Heap.siftDown
    dsimp only
    rw [hl, hr]
    split
    next => rfl
    next hmove =>
      obtain ⟨hgt, hlt, -⟩ := Heap.pick_child (worse cmp) hmove
      exact ih hlt (by omega)

/-- The slots with the root replaced are in order but for the root. -/
theorem downOrder_update {r : α → α → Bool} (h : Heap.Ordered r f n) {m : Nat} (hm : m ≤ n) (x : α) :
    Heap.DownOrder r (Function.update f 0 x) m 0 := by
  refine ⟨fun c hc hcn hp => ?_, fun h0 => absurd rfl h0⟩
  rw [Function.update_of_ne (by omega), Function.update_of_ne hp]
  exact h c hc (by omega)

theorem items_tail (f : Nat → α) (n : Nat) : Heap.items f (n + 1) = f 0 :: (List.range n).map fun k => f (k + 1) := by
  simp [Heap.items, List.range_succ_eq_map, Function.comp_def]

/-- Replacing the root replaces one of the items. -/
theorem items_update (f : Nat → α) {n : Nat} (hn : 0 < n) (x : α) :
    (f 0 :: Heap.items (Function.update f 0 x) n).Perm (x :: Heap.items f n) := by
  obtain ⟨n, rfl⟩ := Nat.exists_eq_add_of_lt hn
  rw [Nat.zero_add, items_tail, items_tail, Function.update_self]
  have htail : ((List.range n).map fun k => Function.update f 0 x (k + 1)) = (List.range n).map fun k => f (k + 1) :=
    List.map_congr_left fun k _ => Function.update_of_ne (Nat.succ_ne_zero k) _ _
  rw [htail]
  exact .swap _ _ _

variable (hc : PreorderCmp cmp)
include hc

/-- Draining ordered slots writes their items, best first. -/
theorem drainSlots_spec (hn : n ≤ 2 ^ 31) (hfuel : n ≤ fuel) (h : Heap.Ordered (worse cmp) f n) :
    ∃ out, drainSlots cmp fuel n f = some out ∧ out.Perm (Heap.items f n) ∧ out.Pairwise fun x y => 0 ≤ cmp x y := by
  induction n generalizing f with
  | zero => exact ⟨[], rfl, .refl _, .nil⟩
  | succ n ih =>
    have hleast : ∀ x ∈ Heap.items f (n + 1), 0 ≤ cmp x (f 0) := by
      intro x hx
      obtain ⟨k, hk, rfl⟩ := Heap.mem_items.mp hx
      have := h.root hc.strictWeak hk
      rw [worse, decide_eq_false_iff_not] at this
      omega
    have hnext : ∃ g, (if n = 0 then some f else siftDown cmp n fuel (Function.update f 0 (f n)) 0) = some g ∧
        Heap.Ordered (worse cmp) g n ∧ (Heap.items g n ++ [f 0]).Perm (Heap.items f (n + 1)) := by
      rcases Nat.eq_zero_or_pos n with h0 | hpos
      · subst h0
        exact ⟨f, if_pos rfl, fun c hc hcn => absurd hcn (by omega), .refl _⟩
      · refine ⟨_, (if_neg hpos.ne').trans (siftDown_eq (by omega) hpos (by omega)),
          Heap.siftDown_ordered hc.strictWeak (downOrder_update h (by omega) _), ?_⟩
        have hitems := Heap.siftDown_items (r := worse cmp) (f := Function.update f 0 (f n)) hpos
        rw [Heap.items_succ]
        exact ((hitems.append_right _).trans (List.perm_append_singleton _ _)).trans
          ((items_update f hpos (f n)).trans (List.perm_append_singleton _ _).symm)
    obtain ⟨g, hg, hordered, hperm⟩ := hnext
    obtain ⟨out, hout, houtperm, hsorted⟩ := ih (by omega) (by omega) hordered
    refine ⟨out ++ [f 0], ?_, (houtperm.append_right _).trans hperm, ?_⟩
    · rw [drainSlots, hg, Option.bind_some, hout]
      rfl
    · rw [List.pairwise_append]
      refine ⟨hsorted, List.pairwise_singleton _ _, fun x hx y hy => ?_⟩
      rw [List.mem_singleton.mp hy]
      exact hleast x (hperm.mem_iff.mp (List.mem_append_left _ (houtperm.mem_iff.mp hx)))

end Drain

section Offers

variable {α : Type} {cmp : α → α → Int}

/-- The heap after some items have been offered, some of which it has lost. -/
structure TopKInv (cmp : α → α → Int) (h : TopK α) (seen : List α) (flags : List Bool) (discarded : List α) : Prop where
  n_eq : h.n = min h.cap seen.length
  ordered : Heap.Ordered (worse cmp) h.slot h.n
  perm : (Heap.items h.slot h.n ++ discarded).Perm seen
  better : ∀ d ∈ discarded, ∀ k ∈ Heap.items h.slot h.n, worse cmp k d = false
  length : flags.length = seen.length
  offered : h.offered = UInt64.ofNat seen.length
  evicted : h.evicted = UInt64.ofNat ((flags.drop h.cap).count true)

theorem topkInv_attach (slot : Nat → α) (cap : Nat) : TopKInv cmp ⟨slot, cap, 0, 0, 0⟩ [] [] [] where
  n_eq := (Nat.min_zero cap).symm
  ordered := fun c _ hc => absurd hc (Nat.not_lt_zero c)
  perm := .refl _
  better := fun d hd => absurd hd List.not_mem_nil
  length := rfl
  offered := rfl
  evicted := by simp

theorem ofNat_succ (k : Nat) : UInt64.ofNat k + 1 = UInt64.ofNat (k + 1) := by
  rw [UInt64.ofNat_add]
  rfl

section Step

variable {h : TopK α} {seen discarded : List α} {flags : List Bool} (hi : TopKInv cmp h seen flags discarded)
include hi

theorem TopKInv.discarded_nil (hroom : h.n < h.cap) : discarded = [] := by
  have hlen := hi.perm.length_eq
  have hn := hi.n_eq
  rw [List.length_append, Heap.items, List.length_map, List.length_range] at hlen
  exact List.eq_nil_of_length_eq_zero (by omega)

theorem TopKInv.offered_succ (item : α) : h.offered + 1 = UInt64.ofNat (seen ++ [item]).length := by
  rw [hi.offered, ofNat_succ, List.length_append]
  rfl

/-- A flag past the capacity counts as a displaced item where it is set. -/
theorem TopKInv.evicted_flag (hfull : h.cap ≤ h.n) (kept : Bool) :
    ((flags ++ [kept]).drop h.cap).count true = (flags.drop h.cap).count true + if kept then 1 else 0 := by
  have hn := hi.n_eq
  have hlen := hi.length
  rw [List.drop_append_of_le_length (by omega), List.count_append]
  cases kept <;> rfl

variable (hc : PreorderCmp cmp)
include hc

theorem TopKInv.push (fuel : Nat) (hroom : h.n < h.cap) (item : α) :
    ∃ h', topkOffer cmp fuel h item = some (h', true) ∧ h'.cap = h.cap ∧
      TopKInv cmp h' (seen ++ [item]) (flags ++ [true]) discarded := by
  have hn := hi.n_eq
  have hlen := hi.length
  have hup : Heap.UpOrder (worse cmp) (Function.update h.slot h.n item) (h.n + 1) h.n := by
    refine ⟨fun c hc hcn hne => ?_, fun _ c hc hcn hp => ?_⟩
    · have hp := Heap.parent_lt (show c ≠ 0 by omega)
      rw [Function.update_of_ne hne, Function.update_of_ne (by omega)]
      exact hi.ordered c hc (by omega)
    · have := Heap.parent_lt (show c ≠ 0 by omega)
      omega
  have hitems : (Heap.items (siftUp cmp (Function.update h.slot h.n item) h.n) (h.n + 1)).Perm
      (Heap.items h.slot h.n ++ [item]) := by
    refine (Heap.siftUp_items (Nat.lt_succ_self h.n)).trans ?_
    rw [Heap.items_succ, Function.update_self, Heap.items_congr fun k hk => Function.update_of_ne (Nat.ne_of_lt hk) _ _]
  refine ⟨_, if_pos hroom, rfl, ?_⟩
  obtain rfl := hi.discarded_nil hroom
  constructor
  · dsimp only
    rw [List.length_append, List.length_singleton]
    omega
  · exact Heap.siftUp_ordered hc.strictWeak hup (Nat.lt_succ_self h.n)
  · rw [List.append_nil]
    have hperm := hi.perm
    rw [List.append_nil] at hperm
    exact hitems.trans (hperm.append_right _)
  · exact fun d hd => absurd hd List.not_mem_nil
  · rw [List.length_append, List.length_append, hlen]
    rfl
  · exact hi.offered_succ item
  · dsimp only
    have hshort : flags.length + 1 ≤ h.cap := by omega
    rw [hi.evicted, List.drop_eq_nil_of_le (by omega), List.drop_eq_nil_of_le (by simpa using hshort)]

theorem TopKInv.reject (fuel : Nat) (hfull : h.cap ≤ h.n) {item : α} (hle : cmp item (h.slot 0) ≤ 0) :
    ∃ h', topkOffer cmp fuel h item = some (h', false) ∧ h'.cap = h.cap ∧
      TopKInv cmp h' (seen ++ [item]) (flags ++ [false]) (item :: discarded) := by
  have hn := hi.n_eq
  have hlen := hi.length
  refine ⟨_, (if_neg (Nat.not_lt_of_le hfull)).trans (if_pos hle), rfl, ?_⟩
  constructor
  · dsimp only
    rw [List.length_append]
    omega
  · exact hi.ordered
  · exact (List.perm_middle.trans (hi.perm.cons item)).trans (List.perm_append_singleton _ _).symm
  · intro d hd k hk
    rcases List.mem_cons.mp hd with rfl | hd
    · obtain ⟨j, hj, rfl⟩ := Heap.mem_items.mp hk
      exact hc.strictWeak.trans _ _ _ ((worse_eq_false hc).mpr hle) (hi.ordered.root hc.strictWeak hj)
    · exact hi.better d hd k hk
  · rw [List.length_append, List.length_append, hlen]
    rfl
  · exact hi.offered_succ item
  · dsimp only
    rw [hi.evicted_flag hfull]
    exact hi.evicted

theorem TopKInv.replace {fuel : Nat} (hcap : 0 < h.cap) (hfull : h.cap ≤ h.n) (hsmall : h.n < 2 ^ 31) (hfuel : h.n ≤ fuel)
    {item : α} (hgt : 0 < cmp item (h.slot 0)) :
    ∃ h', topkOffer cmp fuel h item = some (h', true) ∧ h'.cap = h.cap ∧
      TopKInv cmp h' (seen ++ [item]) (flags ++ [true]) (h.slot 0 :: discarded) := by
  have hn := hi.n_eq
  have hlen := hi.length
  have hpos : 0 < h.n := by omega
  have hsift := @siftDown_eq _ cmp _ _ _ (Function.update h.slot 0 item) hsmall hpos (show h.n ≤ 0 + fuel by omega)
  have hitems := Heap.siftDown_items (r := worse cmp) (f := Function.update h.slot 0 item) hpos
  have hroot : worse cmp item (h.slot 0) = false := by
    rw [worse, decide_eq_false_iff_not]
    omega
  have hup := items_update h.slot hpos item
  let h' : TopK α := { h with
    slot := Heap.siftDown (worse cmp) (Function.update h.slot 0 item) h.n 0
    offered := h.offered + 1
    evicted := h.evicted + 1 }
  have hoffer : topkOffer cmp fuel h item = some (h', true) := by
    rw [topkOffer, if_neg (Nat.not_lt_of_le hfull), if_neg (Int.not_le_of_gt hgt)]
    dsimp only
    rw [hsift]
    rfl
  have hkept : ∀ k ∈ Heap.items h'.slot h.n, worse cmp k (h.slot 0) = false := by
    intro k hk
    have hmem := hup.mem_iff.mp (List.mem_cons_of_mem _ (hitems.mem_iff.mp hk))
    rcases List.mem_cons.mp hmem with rfl | hk
    · exact hroot
    · obtain ⟨j, hj, rfl⟩ := Heap.mem_items.mp hk
      exact hi.ordered.root hc.strictWeak hj
  refine ⟨h', hoffer, rfl, ?_⟩
  constructor
  · show h.n = min h.cap (seen ++ [item]).length
    rw [List.length_append]
    omega
  · exact Heap.siftDown_ordered hc.strictWeak (downOrder_update hi.ordered (Nat.le_refl _) item)
  · calc Heap.items h'.slot h.n ++ h.slot 0 :: discarded
        _ |>.Perm (h.slot 0 :: Heap.items h'.slot h.n ++ discarded) := List.perm_middle
        _ |>.Perm (item :: Heap.items h.slot h.n ++ discarded) := ((hitems.cons _).trans hup).append_right _
        _ |>.Perm (item :: seen) := hi.perm.cons item
        _ |>.Perm (seen ++ [item]) := (List.perm_append_singleton _ _).symm
  · intro d hd k hk
    rcases List.mem_cons.mp hd with rfl | hd
    · exact hkept k hk
    · have hroot0 := hi.better d hd (h.slot 0) (Heap.mem_items.mpr ⟨0, hpos, rfl⟩)
      exact hc.strictWeak.trans _ _ _ hroot0 (hkept k hk)
  · rw [List.length_append, List.length_append, hlen]
    rfl
  · exact hi.offered_succ item
  · show h.evicted + 1 = UInt64.ofNat (((flags ++ [true]).drop h.cap).count true)
    rw [hi.evicted_flag hfull, hi.evicted, ofNat_succ]
    rfl

/-- What one offer makes of the heap. -/
theorem TopKInv.offer {fuel : Nat} (hcap : 0 < h.cap) (hsmall : h.cap < 2 ^ 31 ∨ h.n < h.cap) (hfuel : h.cap ≤ fuel)
    (item : α) :
    ∃ h' kept discarded', topkOffer cmp fuel h item = some (h', kept) ∧ h'.cap = h.cap ∧
      TopKInv cmp h' (seen ++ [item]) (flags ++ [kept]) discarded' := by
  have hn := hi.n_eq
  rcases Nat.lt_or_ge h.n h.cap with hroom | hfull
  · obtain ⟨h', h₁, h₂, h₃⟩ := hi.push hc fuel hroom item
    exact ⟨h', _, _, h₁, h₂, h₃⟩
  · rcases Int.lt_or_le 0 (cmp item (h.slot 0)) with hgt | hle
    · obtain ⟨h', h₁, h₂, h₃⟩ := hi.replace hc hcap hfull (by omega) (by omega : h.n ≤ fuel) hgt
      exact ⟨h', _, _, h₁, h₂, h₃⟩
    · obtain ⟨h', h₁, h₂, h₃⟩ := hi.reject hc fuel hfull hle
      exact ⟨h', _, _, h₁, h₂, h₃⟩

end Step

/-- What a run of offers makes of the heap. -/
theorem TopKInv.offers (hc : PreorderCmp cmp) {fuel : Nat} {items seen discarded : List α} {flags : List Bool} {h : TopK α}
    (hi : TopKInv cmp h seen flags discarded) (hcap : 0 < h.cap)
    (hsmall : h.cap < 2 ^ 31 ∨ seen.length + items.length ≤ h.cap) (hfuel : h.cap ≤ fuel) :
    ∃ h' flags' discarded', topkOffers cmp fuel h items = some (h', flags') ∧ h'.cap = h.cap ∧
      TopKInv cmp h' (seen ++ items) (flags ++ flags') discarded' := by
  induction items generalizing h seen flags discarded with
  | nil => exact ⟨h, [], discarded, rfl, rfl, by rwa [List.append_nil, List.append_nil]⟩
  | cons item items ih =>
    have hn := hi.n_eq
    rw [List.length_cons] at hsmall
    obtain ⟨h₁, kept, discarded₁, hoffer, hcap₁, hi₁⟩ := hi.offer hc hcap (by omega) hfuel item
    obtain ⟨h', flags', discarded', hoffers, hcap', hi'⟩ := ih hi₁ (by omega)
      (by rw [hcap₁, List.length_append, List.length_singleton]; omega) (by omega)
    refine ⟨h', kept :: flags', discarded', ?_, hcap'.trans hcap₁, ?_⟩
    · rw [topkOffers, hoffer, Option.bind_some, hoffers]
      rfl
    · rw [List.append_assoc, List.append_assoc] at hi'
      exact hi'

end Offers

theorem selectsBest_of_small {cap count : Nat} (hcap : 0 < cap) (hsmall : cap < 2 ^ 31 ∨ count ≤ 2 ^ 31) :
    SelectsBest cap count := by
  intro α cmp hc slot items hlen
  have hstart : TopKInv cmp ⟨slot, cap, 0, 0, 0⟩ [] [] [] := topkInv_attach slot cap
  obtain ⟨h, flags, discarded, hoffers, hcap', hi⟩ := @TopKInv.offers _ cmp hc cap items _ _ _ _ hstart hcap
    (show cap < 2 ^ 31 ∨ 0 + items.length ≤ cap by omega) (Nat.le_refl _)
  have hn := hi.n_eq
  rw [List.nil_append, hlen] at hn
  have hcap' : h.cap = cap := hcap'
  obtain ⟨out, hout, hperm, hsorted⟩ := @drainSlots_spec _ cmp cap h.n _ hc (by omega) (by omega) hi.ordered
  refine ⟨cap, _, h, flags, out, _, if_neg hcap.ne', hoffers, by rw [topkDrain, hout]; rfl, ?_⟩
  have hseen := hi.perm
  rw [List.nil_append] at hseen
  constructor
  · rw [hperm.length_eq, Heap.items, List.length_map, List.length_range, hn, hcap', hlen]
  · exact hsorted
  · refine ⟨discarded, (hperm.append_right _).trans hseen, fun d hd k hk => ?_⟩
    rw [not_better_iff hc]
    exact hi.better d hd k (hperm.mem_iff.mp hk)
  · exact hi.offered
  · have hevicted := hi.evicted
    rw [hcap', List.nil_append] at hevicted
    exact hevicted

section Overflow

/-- The order of numbers as a comparator. -/
def cmpNat (x y : Nat) : Int :=
  (x : Int) - y

theorem cmpNat_preorder : PreorderCmp cmpNat := by
  unfold cmpNat
  exact ⟨fun x y => by omega, fun x y z h₁ h₂ => by omega⟩

/-- All slots hold a one but one, which holds a two. -/
def TwoAt (n i : Nat) (f : Nat → Nat) : Prop :=
  f i = 2 ∧ ∀ k < n, k ≠ i → f k = 1

theorem TwoAt.swap {n i m : Nat} {f : Nat → Nat} (h : TwoAt n i f) (hm : m < n) (hne : m ≠ i) :
    TwoAt n m (Heap.swap f i m) := by
  refine ⟨?_, fun k hk hkm => ?_⟩
  · rw [Heap.swap, if_neg hne, if_pos rfl]
    exact h.1
  · unfold Heap.swap
    rw [if_neg hkm]
    split
    next => exact h.2 m hm hne
    next hki => exact h.2 k hk hki

theorem TwoAt.pick_left {n i l r : Nat} {f : Nat → Nat} (h : TwoAt n i f) (hl : l < n) (hli : l ≠ i)
    (hr : r < n → r ≠ i) : Heap.pick (worse cmpNat) f n i l r = l := by
  have hfl := h.2 l hl hli
  have hm : (if (decide (l < n) && worse cmpNat (f l) (f i)) = true then l else i) = l := by
    refine if_pos ?_
    rw [hfl, h.1, decide_eq_true hl]
    rfl
  unfold Heap.pick
  dsimp only
  rw [hm]
  refine if_neg fun hno => ?_
  rw [Bool.and_eq_true, decide_eq_true_eq] at hno
  rw [hfl, h.2 r hno.1 (hr hno.1)] at hno
  exact absurd hno.2 (by decide)

theorem TwoAt.pick_right {n i l r : Nat} {f : Nat → Nat} (h : TwoAt n i f) (hl : n ≤ l) (hr : r < n) (hri : r ≠ i) :
    Heap.pick (worse cmpNat) f n i l r = r := by
  have hm : (if (decide (l < n) && worse cmpNat (f l) (f i)) = true then l else i) = i := by
    refine if_neg ?_
    rw [decide_eq_false (Nat.not_lt_of_le hl)]
    exact Bool.false_ne_true
  unfold Heap.pick
  dsimp only
  rw [hm]
  refine if_pos ?_
  rw [h.1, h.2 r hr hri, decide_eq_true hr]
  rfl

/-- The two goes down the left side to slot `2 ^ 31 - 1`, whose right child is the root again. -/
theorem siftDown_loops {n : Nat} (hn : 2 ^ 31 ≤ n) (hn32 : n < 2 ^ 32) (fuel d : Nat) (hd : d ≤ 31) {f : Nat → Nat}
    (h : TwoAt n (2 ^ d - 1) f) : siftDown cmpNat n fuel f (2 ^ d - 1) = none := by
  induction fuel generalizing d f with
  | zero => rfl
  | succ fuel ih =>
    have hpow : 2 ^ d ≤ 2 ^ 31 := Nat.pow_le_pow_right (by decide) hd
    have hpos := Nat.two_pow_pos d
    rw [siftDown]
    rcases Nat.lt_or_eq_of_le hd with hlt | rfl
    · have hpow' : 2 ^ (d + 1) ≤ 2 ^ 31 := Nat.pow_le_pow_right (by decide) hlt
      have hdouble : 2 ^ (d + 1) = 2 ^ d + 2 ^ d := by rw [Nat.pow_succ, Nat.mul_two]
      have hl : (2 * (2 ^ d - 1) + 1) % 2 ^ 32 = 2 ^ (d + 1) - 1 := by
        rw [Nat.mod_eq_of_lt (by omega)]
        omega
      have hr : (2 ^ (d + 1) - 1 + 1) % 2 ^ 32 = 2 ^ (d + 1) := by
        rw [Nat.mod_eq_of_lt (by omega)]
        omega
      rw [hl, hr, h.pick_left (by omega) (by omega) (fun _ => by omega), if_neg (by omega)]
      exact ih (d + 1) hlt (h.swap (by omega) (by omega))
    · have hl : (2 * (2 ^ 31 - 1) + 1) % 2 ^ 32 = 2 ^ 32 - 1 := by decide
      have hr : (2 ^ 32 - 1 + 1) % 2 ^ 32 = 0 := by decide
      rw [hl, hr, h.pick_right (by omega) (by omega) (by omega), if_neg (by omega)]
      exact ih 0 (by omega) (h.swap (by omega) (by omega))

/-- A zero and then ones: the slots are the items. -/
theorem offer_ones (fuel : Nat) {h : TopK Nat} (hroom : h.n < h.cap) (hpos : 0 < h.n)
    (hones : ∀ k < h.n, h.slot k ≤ 1) {x : Nat} (hx : 1 ≤ x) :
    topkOffer cmpNat fuel h x =
      some ({ h with slot := Function.update h.slot h.n x, n := h.n + 1, offered := h.offered + 1 }, true) := by
  have hp := Heap.parent_lt hpos.ne'
  have hless : worse cmpNat x (h.slot (Heap.parent h.n)) = false := by
    have := hones _ hp
    unfold worse cmpNat
    rw [decide_eq_false_iff_not]
    omega
  have hup : siftUp cmpNat (Function.update h.slot h.n x) h.n = Function.update h.slot h.n x := by
    rw [siftUp, Heap.siftUp, if_neg hpos.ne', Function.update_self, Function.update_of_ne hp.ne, hless]
    rfl
  rw [topkOffer, if_pos hroom]
  dsimp only
  rw [hup]

/-- The heap after a zero and `k` ones. -/
structure OnesHeap (cap k : Nat) (h : TopK Nat) : Prop where
  cap_eq : h.cap = cap
  n_eq : h.n = k + 1
  root : h.slot 0 = 0
  ones : ∀ j, 0 < j → j ≤ k → h.slot j = 1

theorem OnesHeap.le {cap k : Nat} {h : TopK Nat} (hh : OnesHeap cap k h) : ∀ j < h.n, h.slot j ≤ 1 := by
  intro j hj
  rw [hh.n_eq] at hj
  rcases Nat.eq_zero_or_pos j with rfl | h0
  · rw [hh.root]
    exact Nat.zero_le _
  · rw [hh.ones j h0 (by omega)]

theorem OnesHeap.one (fuel : Nat) {cap k : Nat} {h : TopK Nat} (hh : OnesHeap cap k h) (hroom : k + 1 < cap) :
    ∃ h', topkOffer cmpNat fuel h 1 = some (h', true) ∧ OnesHeap cap (k + 1) h' := by
  have hn := hh.n_eq
  have hcap := hh.cap_eq
  refine ⟨_, offer_ones fuel (by omega) (by omega) hh.le (Nat.le_refl _), ?_⟩
  refine ⟨hcap, by dsimp only; omega, ?_, fun j hj hjk => ?_⟩
  · dsimp only
    rw [Function.update_of_ne (by omega)]
    exact hh.root
  · dsimp only
    by_cases hjn : j = h.n
    · rw [hjn, Function.update_self]
    · rw [Function.update_of_ne hjn]
      exact hh.ones j hj (by omega)

theorem OnesHeap.many (fuel : Nat) {cap k m : Nat} {h : TopK Nat} (hh : OnesHeap cap k h) (hroom : k + m < cap)
    (rest : List Nat) :
    ∃ h', OnesHeap cap (k + m) h' ∧
      topkOffers cmpNat fuel h (List.replicate m 1 ++ rest) =
        (topkOffers cmpNat fuel h' rest).map fun q => (q.1, List.replicate m true ++ q.2) := by
  induction m generalizing k h with
  | zero => exact ⟨h, hh, (Option.map_id_apply).symm⟩
  | succ m ih =>
    obtain ⟨h₁, hoffer, hh₁⟩ := hh.one fuel (by omega)
    obtain ⟨h', hh', heq⟩ := ih hh₁ (by omega)
    rw [show k + 1 + m = k + (m + 1) by omega] at hh'
    refine ⟨h', hh', ?_⟩
    rw [List.replicate_succ, List.cons_append, topkOffers, hoffer, Option.bind_some, heq, Option.map_map]
    rfl

/-- The offers of a zero and of `k` ones, before the rest. -/
theorem offers_ones (fuel : Nat) (slot : Nat → Nat) {cap k : Nat} (hroom : k < cap) (rest : List Nat) :
    ∃ h', OnesHeap cap k h' ∧
      topkOffers cmpNat fuel ⟨slot, cap, 0, 0, 0⟩ (0 :: (List.replicate k 1 ++ rest)) =
        (topkOffers cmpNat fuel h' rest).map fun q => (q.1, true :: (List.replicate k true ++ q.2)) := by
  have hup : siftUp cmpNat (Function.update slot 0 0) 0 = Function.update slot 0 0 := by
    rw [siftUp, Heap.siftUp, if_pos rfl]
  have hoffer : topkOffer cmpNat fuel ⟨slot, cap, 0, 0, 0⟩ 0 = some (⟨Function.update slot 0 0, cap, 1, 1, 0⟩, true) := by
    rw [topkOffer, if_pos (show 0 < cap by omega)]
    dsimp only
    rw [hup]
    rfl
  have hh : OnesHeap cap 0 ⟨Function.update slot 0 0, cap, 1, 1, 0⟩ :=
    ⟨rfl, rfl, Function.update_self 0 0 slot, fun j hj hj0 => absurd hj (by omega)⟩
  obtain ⟨h', hh', heq⟩ := hh.many fuel (m := k) (by omega) rest
  rw [Nat.zero_add] at hh'
  refine ⟨h', hh', ?_⟩
  rw [topkOffers, hoffer, Option.bind_some, heq, Option.map_map]
  rfl

theorem OnesHeap.twoAt {cap k : Nat} {h : TopK Nat} (hh : OnesHeap cap k h) {n : Nat} (hn : n ≤ k + 1) :
    TwoAt n 0 (Function.update h.slot 0 2) := by
  refine ⟨Function.update_self _ _ _, fun j hj h0 => ?_⟩
  rw [Function.update_of_ne h0]
  exact hh.ones j (by omega) (by omega)

/-- With one more item than slots, the offer of the last one never returns. -/
theorem offer_two_loops (fuel : Nat) {cap : Nat} (hcap : 2 ^ 31 ≤ cap) (hcap32 : cap < 2 ^ 32) {h : TopK Nat}
    (hh : OnesHeap cap (cap - 1) h) : topkOffer cmpNat fuel h 2 = none := by
  have hn := hh.n_eq
  have hc := hh.cap_eq
  have hloop := siftDown_loops (n := h.n) (by omega) (by omega) fuel 0 (by omega) (hh.twoAt (n := h.n) (by omega))
  have hgt : ¬ cmpNat 2 (h.slot 0) ≤ 0 := by
    rw [hh.root]
    decide
  rw [topkOffer, if_neg (by dsimp only; omega), if_neg hgt]
  dsimp only
  rw [show siftDown cmpNat h.n fuel (Function.update h.slot 0 2) 0 = none from hloop]
  rfl

/-- With more than `2 ^ 31` items kept, the drain never returns. -/
theorem drain_two_loops (fuel : Nat) {cap k : Nat} (hk : 2 ^ 31 ≤ k + 1) (hk32 : k + 1 < 2 ^ 32) {h : TopK Nat}
    (hh : OnesHeap cap k h) : drainSlots cmpNat fuel (h.n + 1) (Function.update h.slot h.n 2) = none := by
  have hn := hh.n_eq
  have htwo : TwoAt h.n 0 (Function.update (Function.update h.slot h.n 2) 0 2) := by
    refine ⟨Function.update_self _ _ _, fun j hj h0 => ?_⟩
    rw [Function.update_of_ne h0, Function.update_of_ne (by omega)]
    exact hh.ones j (by omega) (by omega)
  have hloop := siftDown_loops (by omega) (by omega) fuel 0 (by omega) htwo
  rw [drainSlots, if_neg (by omega), Function.update_self]
  rw [show siftDown cmpNat h.n fuel (Function.update (Function.update h.slot h.n 2) 0 2) 0 = none from hloop]
  rfl

theorem not_selectsBest_offer {cap count : Nat} (hcap : 2 ^ 31 ≤ cap) (hcap32 : cap < 2 ^ 32) (hcount : cap < count) :
    ¬ SelectsBest cap count := by
  intro hall
  obtain ⟨fuel, h₀, h, flags, out, h', hattach, hoffers, -⟩ := hall Nat cmpNat cmpNat_preorder (fun _ => 0)
    (0 :: (List.replicate (cap - 1) 1 ++ 2 :: List.replicate (count - cap - 1) 0)) (by simp; omega)
  rw [topkAttach, if_neg (by omega)] at hattach
  obtain rfl := Option.some.inj hattach
  obtain ⟨h₁, hh₁, heq⟩ := offers_ones fuel (fun _ => 0) (show cap - 1 < cap by omega)
    (2 :: List.replicate (count - cap - 1) 0)
  rw [heq, topkOffers, offer_two_loops fuel hcap hcap32 hh₁] at hoffers
  cases hoffers

theorem not_selectsBest_drain {cap count : Nat} (hcap32 : cap < 2 ^ 32) (hcount : count ≤ cap) (hbig : 2 ^ 31 < count) :
    ¬ SelectsBest cap count := by
  intro hall
  obtain ⟨fuel, h₀, h, flags, out, h', hattach, hoffers, hdrain, -⟩ := hall Nat cmpNat cmpNat_preorder (fun _ => 0)
    (0 :: (List.replicate (count - 2) 1 ++ [2])) (by simp; omega)
  rw [topkAttach, if_neg (by omega)] at hattach
  obtain rfl := Option.some.inj hattach
  obtain ⟨h₁, hh₁, heq⟩ := offers_ones fuel (fun _ => 0) (show count - 2 < cap by omega) [2]
  have hn := hh₁.n_eq
  have hc := hh₁.cap_eq
  rw [heq, topkOffers, offer_ones fuel (by omega) (by omega) hh₁.le (by decide)] at hoffers
  obtain ⟨rfl, -⟩ := Prod.mk.inj (Option.some.inj hoffers)
  rw [topkDrain, drain_two_loops fuel (by omega) (by omega) hh₁] at hdrain
  cases hdrain

end Overflow

/-- The best items are returned, whatever they are, exactly if fewer than `2 ^ 31` slots or at most `2 ^ 31` items are
used. -/
theorem selectsBest_iff {cap count : Nat} (hcap : 0 < cap) (hcap32 : cap < 2 ^ 32) :
    SelectsBest cap count ↔ cap < 2 ^ 31 ∨ count ≤ 2 ^ 31 := by
  refine ⟨fun hall => ?_, selectsBest_of_small hcap⟩
  by_contra hno
  rw [not_or, Nat.not_lt, Nat.not_le] at hno
  rcases Nat.lt_or_ge cap count with h | h
  · exact not_selectsBest_offer hno.1 hcap32 h hall
  · exact not_selectsBest_drain hcap32 h hno.2 hall

theorem selectsBest_sixtyFour : SelectsBest 64 20000 :=
  (selectsBest_iff (by decide) (by decide)).mpr (.inl (by decide))

/-- In `2 ^ 31` slots a zero and ones, and then a two: the last offer never returns. -/
theorem topk_wide_never_returns :
    PreorderCmp cmpNat ∧ (∀ fuel, topkOffers cmpNat fuel ⟨fun _ => 0, 2 ^ 31, 0, 0, 0⟩
      (0 :: (List.replicate (2 ^ 31 - 1) 1 ++ [2])) = none) ∧ ¬ SelectsBest (2 ^ 31) (2 ^ 31 + 1) := by
  refine ⟨cmpNat_preorder, fun fuel => ?_, not_selectsBest_offer (Nat.le_refl _) (by decide) (Nat.lt_succ_self _)⟩
  obtain ⟨h, hh, heq⟩ := offers_ones fuel (fun _ => 0) (show 2 ^ 31 - 1 < 2 ^ 31 by decide) [2]
  rw [heq, topkOffers, offer_two_loops fuel (Nat.le_refl _) (by decide) hh]
  rfl

end Qanat
