import Qanat.StoreMerge
import Qanat.StoreInet

namespace Qanat

inductive StoreAct
  | observe (a : Addr) (oper : Bytes) (good : Bool) (handshakeUs : UInt32) (now : UInt64)
  | load (file : Option Bytes)
  | save (file : Option Bytes)

variable {inet : InetText} {cap : Nat} {s : Store}

def storeStep (inet : InetText) (s : Store) : StoreAct → Store
  | .observe a oper good handshakeUs now => storeObserve s a oper good handshakeUs.toNat now.toNat
  | .load file => (storeLoad inet s file).1
  | .save _ => s

def storeRun (inet : InetText) (cap : Nat) (acts : List StoreAct) : Store :=
  acts.foldl (storeStep inet) (storeInit cap)

theorem storeStep_valid (h : s.cap = cap ∧ StoreValid cap s.e) (act : StoreAct) :
    (storeStep inet s act).cap = cap ∧ StoreValid cap (storeStep inet s act).e := by
  obtain ⟨rfl, h⟩ := h
  cases act with
  | observe a oper good handshakeUs now =>
    rw [storeStep, storeObserve_eq h handshakeUs.toNat_lt]
    exact ⟨observeAs_cap id, observe_valid h handshakeUs.toNat_lt now.toNat_lt⟩
  | load file => exact ⟨storeLoad_cap s file, storeLoad_valid h file⟩
  | save file => exact ⟨rfl, h⟩

/-- Every store that a run reaches is valid. -/
theorem storeRun_valid (inet : InetText) (cap : Nat) (acts : List StoreAct) :
    (storeRun inet cap acts).cap = cap ∧ StoreValid cap (storeRun inet cap acts).e := by
  have key : ∀ (acts : List StoreAct) (s : Store), s.cap = cap ∧ StoreValid cap s.e →
      (acts.foldl (storeStep inet) s).cap = cap ∧ StoreValid cap (acts.foldl (storeStep inet) s).e := by
    intro acts
    induction acts with
    | nil => exact fun s h => h
    | cons act acts ih => exact fun s h => ih _ (storeStep_valid h act)
  exact key acts _ ⟨rfl, storeValid_nil cap⟩

section Save

theorem mergeDisk_eq (h : StoreValid s.cap s.e) {file : Option Bytes} {disk : List StoreEntry}
    (hdisk : loadInto inet s.cap file = some disk) :
    mergeDisk inet s.cap s file = disk.foldl (mergeOne s.cap) s.e := by
  rw [mergeDisk, hdisk, List.take_of_length_le h.room]

theorem mergeDisk_none (h : StoreValid s.cap s.e) {file : Option Bytes} (hdisk : loadInto inet s.cap file = none) :
    mergeDisk inet s.cap s file = s.e := by
  rw [mergeDisk, hdisk, List.take_of_length_le h.room]

theorem mergeDisk_listing (h : StoreValid s.cap s.e) (file : Option Bytes) :
    Listing s.cap (mergeDisk inet s.cap s file) := by
  cases hload : loadInto inet s.cap file with
  | none =>
    rw [mergeDisk_none h hload]
    exact h.toListing
  | some disk =>
    have hdisk := loadInto_valid hload
    rw [mergeDisk_eq h hload]
    refine ⟨fun e he => ?_, ?_, ?_⟩
    · obtain he | he | ⟨m, hm, d, hd, -, rfl⟩ := mem_mergeAll h.distinct hdisk.distinct he
      · exact h.fits e he
      · exact hdisk.fits e he
      · exact mergeEntry_fits (hdisk.fits d hd) (h.fits m hm)
    · rw [mergeAll_eq h.distinct]
      exact Keyed.nodup_upsertAll mergeEntry_addr h.distinct
    · rw [mergeAll_eq h.distinct]
      exact Keyed.length_upsertAll_le h.room

/-- No address is idle on the later of its two sides and has runs on the other. -/
def SaveMeets (inet : InetText) (s : Store) (file : Option Bytes) : Prop :=
  ∀ disk, loadInto inet s.cap file = some disk → ∀ m ∈ s.e, ∀ d ∈ disk, m.addr = d.addr →
    ¬IdleLater d m ∧ ¬IdleLater m d

theorem mergeDisk_sane_iff (h : StoreValid s.cap s.e) (file : Option Bytes) :
    (∀ e ∈ mergeDisk inet s.cap s file, e.Sane) ↔ SaveMeets inet s file := by
  unfold SaveMeets
  cases hload : loadInto inet s.cap file with
  | none =>
    rw [mergeDisk_none h hload]
    exact ⟨fun _ disk hd => (nomatch hd), fun _ => h.sane⟩
  | some disk =>
    have hdisk := loadInto_valid hload
    rw [mergeDisk_eq h hload]
    constructor
    · rintro hs _ ⟨⟩ m hm d hd haddr
      have hm' := (Keyed.lookup_eq_some h.distinct).mpr ⟨hm, haddr⟩
      have hd' := (Keyed.lookup_eq_some hdisk.distinct).mpr ⟨hd, rfl⟩
      have hboth : Keyed.lookup StoreEntry.addr d.addr (disk.foldl (mergeOne s.cap) s.e) = some (mergeEntry d m) := by
        rw [mergeAll_eq h.distinct]
        exact Keyed.lookup_upsertAll_both mergeEntry_addr hdisk.distinct hd' hm'
      exact (mergeEntry_sane_iff (hdisk.sane d hd) (h.sane m hm)).mp (hs _ (Keyed.mem_of_lookup hboth).1)
    · intro hmeets e he
      obtain he | he | ⟨m, hm, d, hd, haddr, rfl⟩ := mem_mergeAll h.distinct hdisk.distinct he
      · exact h.sane e he
      · exact hdisk.sane e he
      · exact (mergeEntry_sane_iff (hdisk.sane d hd) (h.sane m hm)).mpr (hmeets disk rfl m hm d hd haddr)

theorem storeSave_accepted_iff (hi : inet.Sound) (h : StoreValid s.cap s.e) (file : Option Bytes) :
    storeParse inet s.cap (storeSave inet s file) = some (mergeDisk inet s.cap s file) ↔ SaveMeets inet s file :=
  (storeText_accepted_iff hi (mergeDisk_listing h file)).trans (mergeDisk_sane_iff h file)

theorem storeSave_refused (hi : inet.Sound) (h : StoreValid s.cap s.e) {file : Option Bytes}
    (hno : ¬SaveMeets inet s file) : storeParse inet s.cap (storeSave inet s file) = none :=
  storeText_refused hi (mergeDisk_listing h file) (mt (mergeDisk_sane_iff h file).mp hno)

/-- A store takes the file that `qn_store_save` wrote exactly when the merge was sane. -/
theorem storeLoad_storeSave_iff (hi : inet.Sound) (h : StoreValid s.cap s.e) (file : Option Bytes) {s' : Store}
    (hcap : s'.cap = s.cap) (hpos : 0 < s.cap) :
    storeLoad inet s' (some (storeSave inet s file)) = ({ s' with e := mergeDisk inet s.cap s file }, true) ↔
      SaveMeets inet s file := by
  unfold storeLoad loadInto
  rw [hcap, if_neg (Nat.ne_of_gt hpos)]
  dsimp only
  constructor
  · intro hload
    by_contra hno
    rw [storeSave_refused hi h hno] at hload
    cases hload
  · intro hmeets
    rw [(storeSave_accepted_iff hi h file).mpr hmeets]

/-- `last_seen` of an address in both lists does not go back. -/
def LastSeenKept (before after : List StoreEntry) : Prop :=
  ∀ e ∈ before, ∀ e' ∈ after, e'.addr = e.addr → e.lastSeen ≤ e'.lastSeen

theorem mergeDisk_lastSeenKept (h : StoreValid s.cap s.e) (file : Option Bytes) :
    LastSeenKept s.e (mergeDisk inet s.cap s file) := by
  intro e he e' he' haddr
  have hsame : ∀ x ∈ s.e, x.addr = e.addr → x = e := fun x hx => List.inj_on_of_nodup_map h.distinct hx he
  cases hload : loadInto inet s.cap file with
  | none =>
    rw [mergeDisk_none h hload] at he'
    rw [hsame e' he' haddr]
  | some disk =>
    have hdisk := loadInto_valid hload
    have hl := (Keyed.lookup_eq_some (mergeDisk_listing h file).distinct).mpr ⟨he', haddr⟩
    have hm := (Keyed.lookup_eq_some h.distinct).mpr ⟨he, rfl⟩
    rw [mergeDisk_eq h hload, mergeAll_eq h.distinct] at hl
    cases hd : Keyed.lookup StoreEntry.addr e.addr disk with
    | none =>
      rw [Keyed.lookup_upsertAll_absent mergeEntry_addr hd, hm] at hl
      rw [Option.some.inj hl]
    | some d =>
      rw [Keyed.lookup_upsertAll_both mergeEntry_addr hdisk.distinct hd hm] at hl
      rw [← Option.some.inj hl, mergeEntry_lastSeen]
      exact le_max_left _ _

end Save

section Keeps

/-- What a step owes: no field wraps, `last_seen` does not go back, and what is written is valid and can be read again. -/
def StepKeeps (inet : InetText) (s : Store) : StoreAct → Prop
  | .observe a oper good handshakeUs now =>
    storeObserve s a oper good handshakeUs.toNat now.toNat = observeAs id s a oper good handshakeUs.toNat now.toNat ∧
      LastSeenKept s.e (storeObserve s a oper good handshakeUs.toNat now.toNat).e
  | .load file => LastSeenKept s.e (storeLoad inet s file).1.e
  | .save file =>
    StoreValid s.cap (mergeDisk inet s.cap s file) ∧ LastSeenKept s.e (mergeDisk inet s.cap s file) ∧
      ∀ s' : Store, s'.cap = s.cap →
        storeLoad inet s' (some (storeSave inet s file)) = ({ s' with e := mergeDisk inet s.cap s file }, true)

/-- When a step does what it owes. -/
def StepMeets (inet : InetText) (s : Store) : StoreAct → Prop
  | .observe .. => True
  | .load file => ∀ loaded, loadInto inet s.cap file = some loaded → ∀ e ∈ s.e, ∀ e' ∈ loaded, e'.addr = e.addr →
      ¬e'.lastSeen < e.lastSeen
  | .save file => SaveMeets inet s file

theorem load_keeps_iff (h : StoreValid s.cap s.e) (hpos : 0 < s.cap) (file : Option Bytes) :
    StepKeeps inet s (.load file) ↔ StepMeets inet s (.load file) := by
  unfold StepKeeps StepMeets storeLoad LastSeenKept
  dsimp only
  rw [if_neg (Nat.ne_of_gt hpos)]
  cases loadInto inet s.cap file with
  | none =>
    refine ⟨fun _ loaded hl => (nomatch hl), fun _ e he e' he' haddr => ?_⟩
    rw [List.inj_on_of_nodup_map h.distinct he' he haddr]
  | some loaded =>
    refine ⟨?_, ?_⟩
    · rintro hk _ ⟨⟩ e he e' he' haddr
      exact Nat.not_lt.mpr (hk e he e' he' haddr)
    · intro hm e he e' he' haddr
      exact Nat.not_lt.mp (hm loaded rfl e he e' he' haddr)

theorem step_keeps_iff (hi : inet.Sound) (h : StoreValid s.cap s.e) (hpos : 0 < s.cap) (act : StoreAct) :
    StepKeeps inet s act ↔ StepMeets inet s act := by
  cases act with
  | observe a oper good handshakeUs now =>
    have heq := @storeObserve_eq s a oper good _ now.toNat h handshakeUs.toNat_lt
    refine ⟨fun _ => trivial, fun _ => ⟨heq, ?_⟩⟩
    rw [heq]
    exact fun e he e' he' haddr => observe_lastSeen_le h he he' haddr
  | load file => exact load_keeps_iff h hpos file
  | save file =>
    constructor
    · exact fun hk => (storeLoad_storeSave_iff hi h file rfl hpos).mp (hk.2.2 s rfl)
    · intro hm
      exact ⟨⟨mergeDisk_listing h file, (mergeDisk_sane_iff h file).mpr hm⟩, mergeDisk_lastSeenKept h file,
        fun s' hs' => (storeLoad_storeSave_iff hi h file hs' hpos).mpr hm⟩

/-- In every state that a run reaches the store is valid, and a step from there does what it owes exactly when
it does not load an older entry of an address or save an idle entry over an earlier one that has runs. -/
theorem store_run_keeps_iff (hi : inet.Sound) (hcap : 0 < cap) (acts : List StoreAct) :
    StoreValid cap (storeRun inet cap acts).e ∧
      ∀ act, StepKeeps inet (storeRun inet cap acts) act ↔ StepMeets inet (storeRun inet cap acts) act := by
  obtain ⟨hc, hv⟩ := storeRun_valid inet cap acts
  refine ⟨hv, fun act => step_keeps_iff hi ?_ ?_ act⟩
  · rw [hc]
    exact hv
  · rw [hc]
    exact hcap

/-- A run of two observations, the second with the clock set back. -/
def clockBack : List StoreAct :=
  [.observe (.v4 0xC0000201) (ascii "mci".toList) true 300 1000, .observe (.v4 0xC0000201) (ascii "mci".toList) false 0 900]

theorem store_run_keeps_clockBack :
    StoreValid 2 (storeRun plainInet 2 clockBack).e ∧
      ∀ act, StepKeeps plainInet (storeRun plainInet 2 clockBack) act ↔
        StepMeets plainInet (storeRun plainInet 2 clockBack) act :=
  store_run_keeps_iff plainInet_sound (by decide) clockBack

def idleFile : Bytes := ascii "# qanat history v2\n192.0.2.1 100 0 0 0 0 0\n".toList

def busyFile : Bytes := ascii "# qanat history v2\n192.0.2.1 50 5 1024 2048 1 300\n".toList

/-- The loader takes both files, but a store loaded from the first and saved over the second leaves a file that it
refuses: the runs of one entry stand beside the weight of the other. -/
theorem store_save_unreadable :
    (storeLoad plainInet (storeInit 2) (some idleFile)).2 = true ∧
      (storeLoad plainInet (storeInit 2) (some busyFile)).2 = true ∧
      mergeDisk plainInet 2 (storeRun plainInet 2 [.load (some idleFile)]) (some busyFile) =
        [⟨.v4 0xC0000201, 100, 5, 0, 0, 1, 0⟩] ∧
      (storeLoad plainInet (storeInit 2)
        (some (storeSave plainInet (storeRun plainInet 2 [.load (some idleFile)]) (some busyFile)))).2 = false := by
  decide +kernel

end Keeps

end Qanat
