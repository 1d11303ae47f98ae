import Qanat.StoreTrip

namespace Qanat

section Push

variable {cap : Nat} {loaded out : List StoreEntry} {e : StoreEntry}

theorem pushEntry_some (h : pushEntry cap loaded e = some out) :
    out = loaded ++ [e] ∧ loaded.length < cap ∧ e.Sane ∧ e.addr ∉ loaded.map StoreEntry.addr := by
  unfold pushEntry at h
  split at h
  next => cases h
  next hno =>
    rw [not_or, not_or, not_or] at hno
    obtain ⟨hroom, hscore, hidle, habs⟩ := hno
    exact ⟨(Option.some.inj h).symm, by omega, ⟨by omega, by tauto⟩, habs⟩

theorem pushEntry_of (hroom : loaded.length < cap) (he : e.Sane) (habs : e.addr ∉ loaded.map StoreEntry.addr) :
    pushEntry cap loaded e = some (loaded ++ [e]) := by
  have hidle := he.idle
  have hscore := he.score_le
  unfold pushEntry
  rw [if_neg]
  rintro (h | h | h | h)
  · omega
  · omega
  · tauto
  · exact habs h

/-- An accepted entry leaves the entries before it valid. -/
theorem pushEntry_valid (hl : StoreValid cap loaded) (he : e.Fits) (h : pushEntry cap loaded e = some out) :
    StoreValid cap out := by
  obtain ⟨rfl, hroom, hsane, habs⟩ := pushEntry_some h
  have hmem : ∀ x ∈ loaded ++ [e], x ∈ loaded ∨ x = e := fun x hx =>
    (List.mem_append.mp hx).imp_right List.mem_singleton.mp
  refine ⟨⟨fun x hx => ?_, ?_, ?_⟩, fun x hx => ?_⟩
  · obtain hx | rfl := hmem x hx
    · exact hl.fits x hx
    · exact he
  · rw [List.map_append, List.map_singleton]
    refine List.nodup_append.mpr ⟨hl.distinct, List.nodup_singleton _, fun x hx y hy hxy => habs ?_⟩
    rw [← List.mem_singleton.mp hy, ← hxy]
    exact hx
  · rw [List.length_append, List.length_singleton]
    exact hroom
  · obtain hx | rfl := hmem x hx
    · exact hl.sane x hx
    · exact hsane

theorem pushAll_some {l : List StoreEntry} (h : l.foldlM (pushEntry cap) loaded = some out) : ∀ e ∈ l, e.Sane := by
  induction l generalizing loaded with
  | nil => exact fun e he => absurd he List.not_mem_nil
  | cons x l ih =>
    rw [List.foldlM_cons] at h
    obtain ⟨mid, hmid, h⟩ := Option.bind_eq_some_iff.mp h
    intro e he
    obtain rfl | he := List.mem_cons.mp he
    · exact (pushEntry_some hmid).2.2.1
    · exact ih h e he

theorem pushAll_of {l : List StoreEntry} (hd : ((loaded ++ l).map StoreEntry.addr).Nodup)
    (hroom : (loaded ++ l).length ≤ cap) (hs : ∀ e ∈ l, e.Sane) :
    l.foldlM (pushEntry cap) loaded = some (loaded ++ l) := by
  induction l generalizing loaded with
  | nil => rw [List.foldlM_nil, List.append_nil]; rfl
  | cons x l ih =>
    have hsplit : loaded ++ x :: l = (loaded ++ [x]) ++ l := by
      rw [List.append_assoc, List.singleton_append]
    have hlen : loaded.length < cap := by
      rw [List.length_append, List.length_cons] at hroom
      omega
    have habs : x.addr ∉ loaded.map StoreEntry.addr := by
      intro hm
      rw [List.map_append, List.map_cons] at hd
      exact (List.nodup_append.mp hd).2.2 _ hm _ List.mem_cons_self rfl
    rw [hsplit] at hd hroom ⊢
    rw [List.foldlM_cons, pushEntry_of hlen (hs x List.mem_cons_self) habs]
    exact ih hd hroom fun e he => hs e (List.mem_cons_of_mem _ he)

end Push

section Load

variable {inet : InetText} {cap : Nat}

theorem parseU64_le {text : Bytes} {max v : Nat} (h : parseU64 text max = some v) : v ≤ max := by
  have := (Option.filter_eq_some_iff.mp h).2
  simpa using this

/-- A line that is taken pushes an entry whose fields fit their types. -/
theorem storeFields_push {st st' : StoreScan} {fields : List Bytes} (h : storeFields inet cap st fields = some st') :
    ∃ e : StoreEntry, e.Fits ∧ pushEntry cap st.loaded e = some st'.loaded := by
  unfold storeFields at h
  split at h
  next f₀ f₁ f₂ f₃ f₄ f₅ f₆ =>
    obtain ⟨a, -, h⟩ := Option.bind_eq_some_iff.mp h
    obtain ⟨lastSeen, hseen, h⟩ := Option.bind_eq_some_iff.mp h
    obtain ⟨runs, hruns, h⟩ := Option.bind_eq_some_iff.mp h
    obtain ⟨score, hscore, h⟩ := Option.bind_eq_some_iff.mp h
    obtain ⟨weight, hweight, h⟩ := Option.bind_eq_some_iff.mp h
    obtain ⟨operMask, hmask, h⟩ := Option.bind_eq_some_iff.mp h
    obtain ⟨handshakeUs, hhand, h⟩ := Option.bind_eq_some_iff.mp h
    have hfit : ∀ {text : Bytes} {v k : Nat}, parseU64 text (2 ^ k - 1) = some v → v < 2 ^ k := by
      intro text v k hv
      exact Nat.lt_of_le_sub_one (Nat.two_pow_pos k) (parseU64_le hv)
    refine ⟨⟨a, lastSeen, runs, score, weight, operMask, handshakeUs⟩,
      ⟨hfit hseen, hfit hruns, hfit hscore, hfit hweight, hfit hmask, hfit hhand⟩, ?_⟩
    unfold pushEntry
    split at h
    next => cases h
    next hno =>
      rw [if_neg hno, ← Option.some.inj h]
  next => cases h

theorem storeLine_valid {st st' : StoreScan} {line : Bytes} {eof : Bool} (hst : StoreValid cap st.loaded)
    (h : storeLine inet cap st line eof = some st') : StoreValid cap st'.loaded := by
  unfold storeLine at h
  dsimp only at h
  split at h
  next => cases h
  next =>
    split at h
    next =>
      split at h
      next => cases h
      next => rw [← Option.some.inj h]; exact hst
    next =>
      split at h
      next => rw [← Option.some.inj h]; exact hst
      next =>
        split at h
        next => rw [← Option.some.inj h]; exact hst
        next =>
          split at h
          next => cases h
          next =>
            obtain ⟨e, he, hpush⟩ := storeFields_push h
            exact pushEntry_valid hst he hpush

theorem storeLoop_valid {n : Nat} {content : Bytes} {st st' : StoreScan} (hst : StoreValid cap st.loaded)
    (h : storeLoop inet cap n content st = some st') : StoreValid cap st'.loaded := by
  induction n generalizing content st with
  | zero =>
    rw [← Option.some.inj h]
    exact hst
  | succ n ih =>
    cases content with
    | nil =>
      rw [← Option.some.inj h]
      exact hst
    | cons c t =>
      obtain ⟨mid, hmid, h⟩ := Option.bind_eq_some_iff.mp h
      exact ih (storeLine_valid hst hmid) h

theorem storeValid_nil (cap : Nat) : StoreValid cap [] :=
  ⟨⟨fun _ h => absurd h List.not_mem_nil, List.nodup_nil, Nat.zero_le _⟩, fun _ h => absurd h List.not_mem_nil⟩

/-- Whatever the loader accepts is valid. -/
theorem loadInto_valid {file : Option Bytes} {l : List StoreEntry} (h : loadInto inet cap file = some l) :
    StoreValid cap l := by
  cases file with
  | none =>
    rw [← Option.some.inj h]
    exact storeValid_nil cap
  | some content =>
    obtain ⟨st, hst, rfl⟩ := Option.map_eq_some_iff.mp h
    exact storeLoop_valid (storeValid_nil cap) hst

theorem storeLoad_cap (s : Store) (file : Option Bytes) : (storeLoad inet s file).1.cap = s.cap := by
  unfold storeLoad
  split
  next => rfl
  next => split <;> rfl

theorem storeLoad_valid {s : Store} (h : StoreValid s.cap s.e) (file : Option Bytes) :
    StoreValid s.cap (storeLoad inet s file).1.e := by
  unfold storeLoad
  split
  next => exact h
  next =>
    split
    next hl => exact loadInto_valid hl
    next => exact h

/-- A listing is accepted as it was written exactly when its entries are sane. -/
theorem storeText_accepted_iff (hi : inet.Sound) {l : List StoreEntry} (hl : Listing cap l) :
    storeParse inet cap (storeText inet l) = some l ↔ ∀ e ∈ l, e.Sane := by
  rw [storeParse_storeText hi hl.fits]
  exact ⟨pushAll_some, fun hs => pushAll_of hl.distinct hl.room hs⟩

theorem storeText_refused (hi : inet.Sound) {l : List StoreEntry} (hl : Listing cap l) (h : ¬∀ e ∈ l, e.Sane) :
    storeParse inet cap (storeText inet l) = none := by
  rw [storeParse_storeText hi hl.fits]
  cases hp : l.foldlM (pushEntry cap) [] with
  | none => rfl
  | some out => exact absurd (pushAll_some hp) h

end Load

section Merge

variable {cap : Nat} {d m e : StoreEntry} {mem disk : List StoreEntry}

/-- An entry without runs that is later than one with runs. -/
def IdleLater (x y : StoreEntry) : Prop :=
  x.runs = 0 ∧ y.runs ≠ 0 ∧ y.lastSeen < x.lastSeen

theorem fresher_iff : fresher d m = true ↔ m.lastSeen < d.lastSeen ∨ d.lastSeen = m.lastSeen ∧ m.weight < d.weight := by
  simp [fresher]

theorem mergeEntry_addr (d m : StoreEntry) (h : m.addr = d.addr) : (mergeEntry d m).addr = d.addr := by
  unfold mergeEntry
  dsimp only
  split
  next => rfl
  next => exact h

theorem mergeEntry_runs (d m : StoreEntry) : (mergeEntry d m).runs = max m.runs d.runs := by
  have hmax : (if m.runs < d.runs then d.runs else m.runs) = max m.runs d.runs := by
    split <;> omega
  unfold mergeEntry
  dsimp only
  split <;> exact hmax

theorem mergeEntry_operMask (d m : StoreEntry) : (mergeEntry d m).operMask = m.operMask ||| d.operMask := by
  unfold mergeEntry
  dsimp only
  split <;> rfl

/-- The fields that the merge takes together from one side. -/
def StoreEntry.payload (e : StoreEntry) : Nat × Nat × Nat × Nat :=
  (e.score, e.weight, e.lastSeen, e.handshakeUs)

theorem mergeEntry_payload (d m : StoreEntry) :
    (mergeEntry d m).payload = if fresher d m then d.payload else m.payload := by
  unfold mergeEntry
  dsimp only
  split <;> rfl

theorem payload_eq_iff {x y : StoreEntry} :
    x.payload = y.payload ↔
      x.score = y.score ∧ x.weight = y.weight ∧ x.lastSeen = y.lastSeen ∧ x.handshakeUs = y.handshakeUs := by
  simp only [StoreEntry.payload, Prod.mk.injEq]

theorem mergeEntry_lastSeen (d m : StoreEntry) : (mergeEntry d m).lastSeen = max m.lastSeen d.lastSeen := by
  have hp := mergeEntry_payload d m
  split at hp
  next h =>
    have := fresher_iff.mp h
    have := (payload_eq_iff.mp hp).2.2.1
    omega
  next h =>
    have := mt fresher_iff.mpr h
    have := (payload_eq_iff.mp hp).2.2.1
    omega

theorem mergeEntry_fits (hd : d.Fits) (hm : m.Fits) : (mergeEntry d m).Fits := by
  have hmask : (mergeEntry d m).operMask < 2 ^ 32 := by
    rw [mergeEntry_operMask]
    exact Nat.or_lt_two_pow hm.operMask hd.operMask
  have hruns : (mergeEntry d m).runs < 2 ^ 32 := by
    rw [mergeEntry_runs]
    exact max_lt hm.runs hd.runs
  have hp := mergeEntry_payload d m
  split at hp
  next =>
    obtain ⟨hscore, hweight, hseen, hhand⟩ := payload_eq_iff.mp hp
    exact ⟨hseen ▸ hd.lastSeen, hruns, hscore ▸ hd.score, hweight ▸ hd.weight, hmask, hhand ▸ hd.handshakeUs⟩
  next =>
    obtain ⟨hscore, hweight, hseen, hhand⟩ := payload_eq_iff.mp hp
    exact ⟨hseen ▸ hm.lastSeen, hruns, hscore ▸ hm.score, hweight ▸ hm.weight, hmask, hhand ▸ hm.handshakeUs⟩

/-- A merged entry is sane unless an idle side is the later one. -/
theorem mergeEntry_sane_iff (hd : d.Sane) (hm : m.Sane) :
    (mergeEntry d m).Sane ↔ ¬IdleLater d m ∧ ¬IdleLater m d := by
  have hruns := mergeEntry_runs d m
  have hdi := hd.idle
  have hmi := hm.idle
  have hds := hd.score_le
  have hms := hm.score_le
  have hp := mergeEntry_payload d m
  have hsane : (mergeEntry d m).Sane ↔ (mergeEntry d m).score ≤ (mergeEntry d m).weight ∧
      ((mergeEntry d m).runs = 0 ↔ (mergeEntry d m).weight = 0) :=
    ⟨fun h => ⟨h.score_le, h.idle⟩, fun h => ⟨h.1, h.2⟩⟩
  rw [hsane]
  unfold IdleLater
  split at hp
  next h =>
    have := fresher_iff.mp h
    obtain ⟨hscore, hweight, -, -⟩ := payload_eq_iff.mp hp
    omega
  next h =>
    have := mt fresher_iff.mpr h
    obtain ⟨hscore, hweight, -, -⟩ := payload_eq_iff.mp hp
    omega

theorem mergeOne_eq (h : (mem.map StoreEntry.addr).Nodup) (d : StoreEntry) :
    mergeOne cap mem d = Keyed.upsert StoreEntry.addr cap mergeEntry mem d := by
  unfold mergeOne Keyed.upsert entryIdx
  by_cases hk : d.addr ∈ mem.map StoreEntry.addr
  · rw [if_neg fun e => (Keyed.findIdx_eq_iff d.addr).mp e hk, if_neg (not_not.mpr hk), Keyed.modify_findIdx h]
  · rw [if_pos ((Keyed.findIdx_eq_iff d.addr).mpr hk), if_pos hk]

/-- The merge is the keyed one. -/
theorem mergeAll_eq (h : (mem.map StoreEntry.addr).Nodup) :
    disk.foldl (mergeOne cap) mem = disk.foldl (Keyed.upsert StoreEntry.addr cap mergeEntry) mem := by
  induction disk generalizing mem with
  | nil => rfl
  | cons d disk ih =>
    rw [List.foldl_cons, List.foldl_cons, mergeOne_eq h]
    exact ih (Keyed.nodup_upsert mergeEntry_addr h)

/-- An entry of a merge comes from one side, or from both. -/
theorem mem_mergeAll (hmem : (mem.map StoreEntry.addr).Nodup) (hdisk : (disk.map StoreEntry.addr).Nodup)
    (h : e ∈ disk.foldl (mergeOne cap) mem) :
    e ∈ mem ∨ e ∈ disk ∨ ∃ m ∈ mem, ∃ d ∈ disk, m.addr = d.addr ∧ e = mergeEntry d m := by
  rw [mergeAll_eq hmem] at h
  have hl := (Keyed.lookup_eq_some (Keyed.nodup_upsertAll mergeEntry_addr hmem)).mpr ⟨h, rfl⟩
  cases hd : Keyed.lookup StoreEntry.addr e.addr disk with
  | none =>
    rw [Keyed.lookup_upsertAll_absent mergeEntry_addr hd] at hl
    exact .inl (Keyed.mem_of_lookup hl).1
  | some d =>
    have hd' := Keyed.mem_of_lookup hd
    cases hm : Keyed.lookup StoreEntry.addr e.addr mem with
    | none =>
      have hnew := Keyed.lookup_upsertAll_new mergeEntry_addr cap hdisk hd hm
      rw [hl] at hnew
      obtain hnew | hnew := hnew
      · obtain rfl := Option.some.inj hnew
        exact .inr (.inl hd'.1)
      · cases hnew
    | some m =>
      have hm' := Keyed.mem_of_lookup hm
      rw [Keyed.lookup_upsertAll_both mergeEntry_addr hdisk hd hm] at hl
      exact .inr (.inr ⟨m, hm'.1, d, hd'.1, hm'.2.trans hd'.2.symm, (Option.some.inj hl).symm⟩)

end Merge

end Qanat
