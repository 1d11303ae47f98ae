import Qanat.StoreRun
import Mathlib.Data.Prod.Lex

namespace Qanat

section Join

variable {cs cs₁ cs₂ : List StoreEntry} {a : Addr} {c d e m : StoreEntry}

/-- What the merge compares. -/
def StoreEntry.stamp (e : StoreEntry) : Nat ×ₗ Nat :=
  toLex (e.lastSeen, e.weight)

theorem fresher_iff_stamp : fresher d m = true ↔ m.stamp < d.stamp := by
  rw [fresher_iff, StoreEntry.stamp, StoreEntry.stamp, Prod.Lex.toLex_lt_toLex]
  dsimp only
  rw [@eq_comm _ d.lastSeen]

theorem stamp_of_payload (h : c.payload = e.payload) : c.stamp = e.stamp := by
  obtain ⟨-, hweight, hseen, -⟩ := payload_eq_iff.mp h
  rw [StoreEntry.stamp, StoreEntry.stamp, hweight, hseen]

/-- The entry that an address owes to all that was contributed for it: every path, the most runs, and the payload of a
latest contribution. -/
structure Joined (cs : List StoreEntry) (a : Addr) (e : StoreEntry) : Prop where
  addr : e.addr = a
  mask : ∀ i, e.operMask.testBit i = true ↔ ∃ c ∈ cs, c.addr = a ∧ c.operMask.testBit i = true
  runs_le : ∀ c ∈ cs, c.addr = a → c.runs ≤ e.runs
  runs_mem : ∃ c ∈ cs, c.addr = a ∧ c.runs = e.runs
  payload : ∃ c ∈ cs, c.addr = a ∧ e.payload = c.payload ∧ ∀ c' ∈ cs, c'.addr = a → c'.stamp ≤ c.stamp

/-- Only the contributions for the address count. -/
theorem Joined.congr (h : Joined cs₁ a e) (hcs : ∀ c, c.addr = a → (c ∈ cs₁ ↔ c ∈ cs₂)) : Joined cs₂ a e where
  addr := h.addr
  mask i := by
    rw [h.mask]
    exact exists_congr fun c => ⟨fun ⟨hc, ha, hb⟩ => ⟨(hcs c ha).mp hc, ha, hb⟩, fun ⟨hc, ha, hb⟩ => ⟨(hcs c ha).mpr hc, ha, hb⟩⟩
  runs_le c hc ha := h.runs_le c ((hcs c ha).mpr hc) ha
  runs_mem := by
    obtain ⟨c, hc, ha, hr⟩ := h.runs_mem
    exact ⟨c, (hcs c ha).mp hc, ha, hr⟩
  payload := by
    obtain ⟨c, hc, ha, hp, hmax⟩ := h.payload
    exact ⟨c, (hcs c ha).mp hc, ha, hp, fun c' hc' ha' => hmax c' ((hcs c' ha').mpr hc') ha'⟩

theorem Joined.single (m : StoreEntry) : Joined [m] m.addr m where
  addr := rfl
  mask i := by simp
  runs_le c hc _ := by rw [List.mem_singleton.mp hc]
  runs_mem := ⟨m, List.mem_cons_self, rfl, rfl⟩
  payload := ⟨m, List.mem_cons_self, rfl, rfl, fun c hc _ => by rw [List.mem_singleton.mp hc]⟩

/-- Merging joins what either side was owed. -/
theorem Joined.merge (hd : Joined cs₁ a d) (hm : Joined cs₂ a m) : Joined (cs₁ ++ cs₂) a (mergeEntry d m) where
  addr := (mergeEntry_addr d m (hm.addr.trans hd.addr.symm)).trans hd.addr
  mask i := by
    rw [mergeEntry_operMask, Nat.testBit_or, Bool.or_eq_true, hm.mask, hd.mask]
    constructor
    · rintro (⟨c, hc, h⟩ | ⟨c, hc, h⟩)
      · exact ⟨c, List.mem_append_right _ hc, h⟩
      · exact ⟨c, List.mem_append_left _ hc, h⟩
    · rintro ⟨c, hc, h⟩
      exact (List.mem_append.mp hc).symm.imp (fun hc => ⟨c, hc, h⟩) fun hc => ⟨c, hc, h⟩
  runs_le c hc ha := by
    rw [mergeEntry_runs]
    obtain hc | hc := List.mem_append.mp hc
    · exact (hd.runs_le c hc ha).trans (le_max_right _ _)
    · exact (hm.runs_le c hc ha).trans (le_max_left _ _)
  runs_mem := by
    rw [mergeEntry_runs]
    obtain h | h := le_total m.runs d.runs
    · obtain ⟨c, hc, ha, hr⟩ := hd.runs_mem
      exact ⟨c, List.mem_append_left _ hc, ha, by rw [hr, max_eq_right h]⟩
    · obtain ⟨c, hc, ha, hr⟩ := hm.runs_mem
      exact ⟨c, List.mem_append_right _ hc, ha, by rw [hr, max_eq_left h]⟩
  payload := by
    obtain ⟨x, hx, hxa, hxp, hxmax⟩ := hd.payload
    obtain ⟨y, hy, hya, hyp, hymax⟩ := hm.payload
    have hxs := stamp_of_payload hxp
    have hys := stamp_of_payload hyp
    have hp := mergeEntry_payload d m
    split at hp
    next hf =>
      have hlt := fresher_iff_stamp.mp hf
      rw [hxs, hys] at hlt
      refine ⟨x, List.mem_append_left _ hx, hxa, hp.trans hxp, fun c hc ha => ?_⟩
      obtain hc | hc := List.mem_append.mp hc
      · exact hxmax c hc ha
      · exact (hymax c hc ha).trans hlt.le
    next hf =>
      have hle := not_lt.mp (mt fresher_iff_stamp.mpr hf)
      rw [hxs, hys] at hle
      refine ⟨y, List.mem_append_right _ hy, hya, hp.trans hyp, fun c hc ha => ?_⟩
      obtain hc | hc := List.mem_append.mp hc
      · exact (hxmax c hc ha).trans hle
      · exact hymax c hc ha

/-- Contributions for an address that tie in what the merge compares have one payload. -/
def NoTies (cs : List StoreEntry) : Prop :=
  ∀ c ∈ cs, ∀ c' ∈ cs, c.addr = c'.addr → c.stamp = c'.stamp → c.payload = c'.payload

theorem Joined.unique (hties : NoTies cs) (h : Joined cs a d) (h' : Joined cs a e) : d = e := by
  have hmask : d.operMask = e.operMask := by
    refine Nat.eq_of_testBit_eq fun i => ?_
    rw [Bool.eq_iff_iff, h.mask, h'.mask]
  have hruns : d.runs = e.runs := by
    obtain ⟨x, hx, hxa, hxr⟩ := h.runs_mem
    obtain ⟨y, hy, hya, hyr⟩ := h'.runs_mem
    exact le_antisymm (hxr ▸ h'.runs_le x hx hxa) (hyr ▸ h.runs_le y hy hya)
  obtain ⟨x, hx, hxa, hxp, hxmax⟩ := h.payload
  obtain ⟨y, hy, hya, hyp, hymax⟩ := h'.payload
  have hstamp := le_antisymm (hymax x hx hxa) (hxmax y hy hya)
  have hp : d.payload = e.payload := by rw [hxp, hyp, hties x hx y hy (hxa.trans hya.symm) hstamp]
  obtain ⟨hscore, hweight, hseen, hhand⟩ := payload_eq_iff.mp hp
  have haddr := h.addr.trans h'.addr.symm
  cases d
  cases e
  simp_all

end Join

section Gather

variable {inet : InetText} {cap : Nat} {s : Store} {file : Option Bytes} {cs l disk : List StoreEntry}

/-- One entry for each contributed address, and no other. -/
structure Gathers (cs l : List StoreEntry) : Prop where
  distinct : (l.map StoreEntry.addr).Nodup
  covers : ∀ c ∈ cs, c.addr ∈ l.map StoreEntry.addr
  joined : ∀ e ∈ l, Joined cs e.addr e

theorem joined_own (h : (l.map StoreEntry.addr).Nodup) {m : StoreEntry} (hm : m ∈ l) : Joined l m.addr m :=
  (Joined.single m).congr fun _ ha =>
    ⟨fun hc => List.mem_singleton.mp hc ▸ hm, fun hc => List.mem_singleton.mpr (List.inj_on_of_nodup_map h hc hm ha)⟩

theorem gathers_self (h : (l.map StoreEntry.addr).Nodup) : Gathers l l :=
  ⟨h, fun _ hc => List.mem_map_of_mem hc, fun _ he => joined_own h he⟩

theorem Gathers.absent (h : Gathers cs disk) {a : Addr} (ha : Keyed.lookup StoreEntry.addr a disk = none) :
    ∀ c ∈ cs, c.addr ≠ a := by
  rintro c hc rfl
  exact Keyed.lookup_eq_none.mp ha (h.covers c hc)

/-- A save adds what its store holds to what the file has gathered. -/
theorem Gathers.mergeAll (h : Gathers cs disk) {mem : List StoreEntry} (hmem : (mem.map StoreEntry.addr).Nodup)
    {S : Finset Addr} (hS : S.card ≤ cap) (hmemS : ∀ m ∈ mem, m.addr ∈ S) (hdiskS : ∀ d ∈ disk, d.addr ∈ S) :
    Gathers (cs ++ mem) (disk.foldl (mergeOne cap) mem) := by
  have hnd : ((disk.foldl (Keyed.upsert StoreEntry.addr cap mergeEntry) mem).map StoreEntry.addr).Nodup :=
    Keyed.nodup_upsertAll mergeEntry_addr hmem
  rw [mergeAll_eq hmem]
  refine ⟨hnd, fun c hc => ?_, fun e he => ?_⟩
  · by_contra habs
    have hnone := Keyed.lookup_eq_none.mpr habs
    cases hd : Keyed.lookup StoreEntry.addr c.addr disk with
    | none =>
      rw [Keyed.lookup_upsertAll_absent mergeEntry_addr hd] at hnone
      obtain hc | hc := List.mem_append.mp hc
      · exact h.absent hd c hc rfl
      · exact Keyed.lookup_eq_none.mp hnone (List.mem_map_of_mem hc)
    | some d =>
      cases hm : Keyed.lookup StoreEntry.addr c.addr mem with
      | none =>
        rw [Keyed.lookup_upsertAll_room mergeEntry_addr hS hdiskS hmemS hmem h.distinct hd hm] at hnone
        cases hnone
      | some m =>
        rw [Keyed.lookup_upsertAll_both mergeEntry_addr h.distinct hd hm] at hnone
        cases hnone
  · have hl := (Keyed.lookup_eq_some hnd).mpr ⟨he, rfl⟩
    cases hd : Keyed.lookup StoreEntry.addr e.addr disk with
    | none =>
      rw [Keyed.lookup_upsertAll_absent mergeEntry_addr hd] at hl
      refine (joined_own hmem (Keyed.mem_of_lookup hl).1).congr fun c ha => ?_
      rw [List.mem_append, or_iff_right fun hc => h.absent hd c hc ha]
    | some d =>
      obtain ⟨hdm, hda⟩ := Keyed.mem_of_lookup hd
      have hjd := h.joined d hdm
      rw [hda] at hjd
      cases hm : Keyed.lookup StoreEntry.addr e.addr mem with
      | none =>
        rw [Keyed.lookup_upsertAll_room mergeEntry_addr hS hdiskS hmemS hmem h.distinct hd hm] at hl
        rw [← Option.some.inj hl]
        refine hda.symm ▸ hjd.congr fun c ha => ?_
        rw [List.mem_append, or_iff_left fun hc =>
          Keyed.lookup_eq_none.mp hm (List.mem_map.mpr ⟨c, hc, ha⟩)]
      | some m =>
        obtain ⟨hmm, hma⟩ := Keyed.mem_of_lookup hm
        rw [Keyed.lookup_upsertAll_both mergeEntry_addr h.distinct hd hm] at hl
        have hjm := joined_own hmem hmm
        rw [hma] at hjm
        have hj := hjd.merge hjm
        rw [Option.some.inj hl] at hj
        exact hj

/-- What the loader takes from a file. -/
def fileEntries (inet : InetText) (cap : Nat) (file : Option Bytes) : List StoreEntry :=
  (loadInto inet cap file).getD []

/-- The file after the saves of some stores, one after the other. -/
def saveAll (inet : InetText) (file : Option Bytes) (stores : List Store) : Option Bytes :=
  stores.foldl (fun file s => some (storeSave inet s file)) file

/-- The entries of the file and of every saved store. -/
def contributions (inet : InetText) (cap : Nat) (file : Option Bytes) (stores : List Store) : List StoreEntry :=
  fileEntries inet cap file ++ stores.flatMap Store.e

/-- Every save finds a file with which its merge is sane. -/
def SavesMeet (inet : InetText) : Option Bytes → List Store → Prop
  | _, [] => True
  | file, s :: stores => SaveMeets inet s file ∧ SavesMeet inet (some (storeSave inet s file)) stores

theorem fileEntries_valid (file : Option Bytes) : StoreValid cap (fileEntries inet cap file) := by
  unfold fileEntries
  cases h : loadInto inet cap file with
  | none => exact storeValid_nil cap
  | some l => exact loadInto_valid h

theorem mergeDisk_fileEntries (h : StoreValid s.cap s.e) (file : Option Bytes) :
    mergeDisk inet s.cap s file = (fileEntries inet s.cap file).foldl (mergeOne s.cap) s.e := by
  unfold fileEntries
  cases hload : loadInto inet s.cap file with
  | none => rw [mergeDisk_none h hload, Option.getD_none, List.foldl_nil]
  | some disk => rw [mergeDisk_eq h hload, Option.getD_some]

theorem fileEntries_saved (hi : inet.Sound) (h : StoreValid s.cap s.e) (hmeets : SaveMeets inet s file) :
    fileEntries inet s.cap (some (storeSave inet s file)) = mergeDisk inet s.cap s file := by
  rw [fileEntries, loadInto, (storeSave_accepted_iff hi h file).mpr hmeets, Option.getD_some]

theorem fileEntries_refused (hi : inet.Sound) (h : StoreValid s.cap s.e) (hno : ¬SaveMeets inet s file) :
    fileEntries inet s.cap (some (storeSave inet s file)) = [] := by
  rw [fileEntries, loadInto, storeSave_refused hi h hno, Option.getD_none]

/-- One save: the file gathers what it had and what the store holds exactly when the merge is sane. -/
theorem save_gathers_iff (hi : inet.Sound) (h : StoreValid s.cap s.e) (hg : Gathers cs (fileEntries inet s.cap file))
    {S : Finset Addr} (hS : S.card ≤ s.cap) (hmemS : ∀ m ∈ s.e, m.addr ∈ S) (hcsS : ∀ c ∈ cs, c.addr ∈ S) :
    Gathers (cs ++ s.e) (fileEntries inet s.cap (some (storeSave inet s file))) ↔ SaveMeets inet s file := by
  constructor
  · intro hg'
    by_contra hno
    rw [fileEntries_refused hi h hno] at hg'
    refine hno fun disk _ m hm _ _ _ => ?_
    exact absurd (hg'.covers m (List.mem_append_right _ hm)) List.not_mem_nil
  · intro hmeets
    rw [fileEntries_saved hi h hmeets, mergeDisk_fileEntries h]
    refine hg.mergeAll h.distinct hS hmemS fun d hd => ?_
    obtain ⟨c, hc, ha, -⟩ := (hg.joined d hd).runs_mem
    exact ha ▸ hcsS c hc

theorem saves_gather_iff (hi : inet.Sound) {S : Finset Addr} (hS : S.card ≤ cap) {stores : List Store}
    (hs : ∀ s ∈ stores, s.cap = cap ∧ StoreValid cap s.e ∧ ∀ m ∈ s.e, m.addr ∈ S) (hcsS : ∀ c ∈ cs, c.addr ∈ S)
    (hg : Gathers cs (fileEntries inet cap file)) :
    (∀ saved, saved <+: stores →
      Gathers (cs ++ saved.flatMap Store.e) (fileEntries inet cap (saveAll inet file saved))) ↔
      SavesMeet inet file stores := by
  induction stores generalizing file cs with
  | nil =>
    refine ⟨fun _ => trivial, fun _ saved hsaved => ?_⟩
    rw [List.prefix_nil.mp hsaved, List.flatMap_nil, List.append_nil]
    exact hg
  | cons s stores ih =>
    obtain ⟨rfl, hv, hmemS⟩ := hs s List.mem_cons_self
    have hone := save_gathers_iff hi hv hg hS hmemS hcsS
    have hcsS' : ∀ c ∈ cs ++ s.e, c.addr ∈ S := fun c hc =>
      (List.mem_append.mp hc).elim (hcsS c) (hmemS c)
    have hrest := fun hg' : Gathers (cs ++ s.e) (fileEntries inet s.cap (some (storeSave inet s file))) =>
      ih (fun s' hs' => hs s' (List.mem_cons_of_mem _ hs')) hcsS' hg'
    have hcons : ∀ saved : List Store, cs ++ (s :: saved).flatMap Store.e = (cs ++ s.e) ++ saved.flatMap Store.e := by
      intro saved
      rw [List.flatMap_cons, List.append_assoc]
    constructor
    · intro hall
      have hfirst : Gathers (cs ++ s.e) (fileEntries inet s.cap (some (storeSave inet s file))) := by
        have := hall [s] (List.prefix_cons_inj s |>.mpr List.nil_prefix)
        rw [hcons, List.flatMap_nil, List.append_nil] at this
        exact this
      refine ⟨hone.mp hfirst, (hrest hfirst).mp fun saved hsaved => ?_⟩
      rw [← hcons]
      exact hall (s :: saved) ((List.prefix_cons_inj s).mpr hsaved)
    · rintro ⟨hmeets, hmeets'⟩ saved hsaved
      cases saved with
      | nil =>
        rw [List.flatMap_nil, List.append_nil]
        exact hg
      | cons x saved =>
        obtain ⟨rfl, htail⟩ := List.cons_prefix_cons.mp hsaved
        rw [hcons]
        exact (hrest (hone.mpr hmeets)).mpr hmeets' saved htail

theorem Gathers.mem_iff {cs' l' : List StoreEntry} (hcs : ∀ c, c ∈ cs ↔ c ∈ cs') (hties : NoTies cs)
    (h : Gathers cs l) (h' : Gathers cs' l') (e : StoreEntry) : e ∈ l ↔ e ∈ l' := by
  have key : ∀ {x y : List StoreEntry}, Gathers cs x → Gathers cs y → e ∈ x → e ∈ y := by
    intro x y hx hy he
    have hj := hx.joined e he
    obtain ⟨c, hc, ha, -⟩ := hj.runs_mem
    obtain ⟨e', he', haddr⟩ := List.mem_map.mp (hy.covers c hc)
    have hj' := hy.joined e' he'
    rw [haddr.trans ha] at hj'
    exact hj.unique hties hj' ▸ he'
  have h'' : Gathers cs l' :=
    ⟨h'.distinct, fun c hc => h'.covers c ((hcs c).mp hc), fun x hx => (h'.joined x hx).congr fun c _ => (hcs c).symm⟩
  exact ⟨key h h'', key h'' h⟩

/-- A store that a process may hold. -/
def HeldStore (inet : InetText) (cap : Nat) (s : Store) : Prop :=
  ∃ acts, s = storeRun inet cap acts

/-- After every one of a row of saves the file has one entry for each contributed address, with all paths, the most
runs and the payload of a latest contribution, exactly when every save finds a file with which its merge is sane; and
two orders of such saves leave the same entries where no contributions tie. -/
theorem store_saves_gather_iff (hi : inet.Sound) (file : Option Bytes) {stores : List Store}
    (hs : ∀ s ∈ stores, HeldStore inet cap s)
    (hfit : ((contributions inet cap file stores).map StoreEntry.addr).toFinset.card ≤ cap) :
    ((∀ saved, saved <+: stores →
      Gathers (contributions inet cap file saved) (fileEntries inet cap (saveAll inet file saved))) ↔
      SavesMeet inet file stores) ∧
    ∀ stores', stores'.Perm stores → SavesMeet inet file stores → SavesMeet inet file stores' →
      NoTies (contributions inet cap file stores) →
      ∀ e, e ∈ fileEntries inet cap (saveAll inet file stores) ↔ e ∈ fileEntries inet cap (saveAll inet file stores') := by
  have hself := gathers_self (@fileEntries_valid inet cap file).distinct
  have hcs : ∀ c ∈ fileEntries inet cap file,
      c.addr ∈ ((contributions inet cap file stores).map StoreEntry.addr).toFinset := fun c hc =>
    List.mem_toFinset.mpr (List.mem_map_of_mem (List.mem_append_left _ hc))
  have hheld : ∀ s ∈ stores, s.cap = cap ∧ StoreValid cap s.e ∧
      ∀ m ∈ s.e, m.addr ∈ ((contributions inet cap file stores).map StoreEntry.addr).toFinset := by
    intro s hmem
    obtain ⟨acts, hacts⟩ := hs s hmem
    obtain ⟨hc, hv⟩ := storeRun_valid inet cap acts
    rw [← hacts] at hc hv
    exact ⟨hc, hv, fun m hm => List.mem_toFinset.mpr
      (List.mem_map_of_mem (List.mem_append_right _ (List.mem_flatMap.mpr ⟨s, hmem, hm⟩)))⟩
  have hiff := saves_gather_iff hi hfit hheld hcs hself
  refine ⟨hiff, fun stores' hperm hm hm' hties => ?_⟩
  have hiff' := saves_gather_iff hi hfit (fun s h => hheld s (hperm.mem_iff.mp h)) hcs hself
  refine Gathers.mem_iff (fun c => ?_) hties (hiff.mpr hm stores (List.prefix_refl _))
    (hiff'.mpr hm' stores' (List.prefix_refl _))
  rw [contributions, List.mem_append, List.mem_append, List.mem_flatMap, List.mem_flatMap]
  simp only [hperm.mem_iff]

def otherStore : Store :=
  storeRun plainInet 2 [.observe (.v4 0xC0000202) (ascii "mci".toList) true 300 1000]

def sameStore : Store :=
  storeRun plainInet 2 [.observe (.v4 0xC0000201) (ascii "mtn".toList) true 280 1200]

theorem held_samples : ∀ s ∈ [otherStore, sameStore], HeldStore plainInet 2 s := by
  intro s hs
  obtain rfl | hs := List.mem_cons.mp hs
  · exact ⟨_, rfl⟩
  · rw [List.mem_singleton.mp hs]
    exact ⟨_, rfl⟩

theorem store_saves_gather_sample :
    ((∀ saved, saved <+: [otherStore, sameStore] →
      Gathers (contributions plainInet 2 (some busyFile) saved)
        (fileEntries plainInet 2 (saveAll plainInet (some busyFile) saved))) ↔
      SavesMeet plainInet (some busyFile) [otherStore, sameStore]) ∧
    ∀ stores', stores'.Perm [otherStore, sameStore] → SavesMeet plainInet (some busyFile) [otherStore, sameStore] →
      SavesMeet plainInet (some busyFile) stores' →
      NoTies (contributions plainInet 2 (some busyFile) [otherStore, sameStore]) →
      ∀ e, e ∈ fileEntries plainInet 2 (saveAll plainInet (some busyFile) [otherStore, sameStore]) ↔
        e ∈ fileEntries plainInet 2 (saveAll plainInet (some busyFile) stores') :=
  store_saves_gather_iff plainInet_sound (some busyFile) held_samples (by decide)

/-- A store loaded from `idleFile` is saved over `busyFile`, and then another store: the last file has lost the address
of the first two. -/
theorem store_saves_lose :
    (contributions plainInet 2 (some busyFile) [storeRun plainInet 2 [.load (some idleFile)], otherStore]).map
        StoreEntry.addr = [.v4 0xC0000201, .v4 0xC0000201, .v4 0xC0000202] ∧
      (fileEntries plainInet 2
        (saveAll plainInet (some busyFile) [storeRun plainInet 2 [.load (some idleFile)], otherStore])).map
        StoreEntry.addr = [.v4 0xC0000202] := by
  decide +kernel

end Gather

end Qanat
