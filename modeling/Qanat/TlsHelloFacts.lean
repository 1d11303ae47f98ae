import Qanat.TlsFlow

namespace Qanat

open TlsHandler Outcome

/-- Whether the random of a ServerHello marks a HelloRetryRequest. -/
def isHelloRetry (hs : Bytes) : Bool :=
  ((Br.init hs).u16.2.take 32).1 = some hrrRandom

/-- What follows the random of a ServerHello up to its session id. -/
def serverSid (hs : Bytes) : Option Bytes × Br :=
  let r := ((Br.init hs).u16.2.take 32).2
  r.u8.2.take r.u8.1

/-- The extension block of a ServerHello. -/
def serverBlock (hs : Bytes) : Bytes :=
  let r := (serverSid hs).2.u16.2.u8.2
  if r.left = 0 then [] else r.u16.2.rest

/-- The extensions of a block, in order. -/
def extensions : Nat → Bytes → List (Nat × Bytes)
  | 0, _ => []
  | fuel + 1, r =>
    if r.length < 4 then []
    else
      (rd16 r, (r.drop 4).take (rd16 (r.drop 2))) ::
        extensions fuel ((r.drop 4).drop (rd16 (r.drop 2)))

def serverExtensions (hs : Bytes) : List (Nat × Bytes) :=
  extensions (serverBlock hs).length (serverBlock hs)

/-- A ServerHello whose supported_versions names TLS 1.3. -/
def selectsTls13 (hs : Bytes) : Bool :=
  (serverExtensions hs).any fun x => x.1 = 0x002B ∧ rd16 x.2 = 0x0304

theorem serverHelloExt_version (isHrr : Bool) (a : HelloExts) (et : Nat) (ev : Bytes) (w : TlsWork) :
    Meets (serverHelloExt isHrr a et ev w)
      (fun a' _ => (a'.haveVersion = a.haveVersion ∧ a'.selVer = a.selVer) ∨ (et = 0x002B ∧ a'.selVer = rd16 ev))
      (fun _ _ => True) := by
  unfold serverHelloExt
  by_cases h : et = 0x002B
  · rw [if_pos h]
    simp [h]
  · rw [if_neg h]
    simp only [meets_ite, meets_bind, meets_refuse, meets_update, meets_pure, meets_throw, meets_session,
      and_self, true_or, implies_true, true_and, and_true]
    intro _ _
    exact (still_parseSelectedAlpn ev w).mono (fun _ _ _ => trivial) (fun _ _ _ => trivial)

theorem eachExt_version (isHrr : Bool) (fuel : Nat) (seen : List Nat) (r : Bytes) (a : HelloExts) (w : TlsWork) :
    Meets (eachExt (serverHelloExt isHrr) fuel seen r a w)
      (fun x _ => (x.1.haveVersion = a.haveVersion ∧ x.1.selVer = a.selVer) ∨
        ∃ y ∈ extensions fuel r, y.1 = 0x002B ∧ rd16 y.2 = x.1.selVer)
      (fun _ _ => True) := by
  induction fuel generalizing seen r a w with
  | zero => exact .inl ⟨rfl, rfl⟩
  | succ fuel ih =>
    unfold eachExt extensions
    by_cases hr : r.length < 4
    · rw [if_pos hr]
      exact .inl ⟨rfl, rfl⟩
    · rw [if_neg hr, if_neg hr]
      simp only [meets_bind, meets_refuse, meets_orRefuse, implies_true, true_and]
      intro _ seen' _
      apply (serverHelloExt_version isHrr a _ _ w).mono
      · intro a' v ha
        apply (ih seen' _ a' v).mono
        · rintro ⟨b, rest⟩ u (⟨hb, hb'⟩ | ⟨y, hy, hy'⟩)
          · obtain ⟨h, h'⟩ | ⟨h, h'⟩ := ha
            · exact .inl ⟨hb.trans h, hb'.trans h'⟩
            · refine .inr ⟨_, List.mem_cons_self, h, ?_⟩
              rw [hb', h']
          · exact .inr ⟨y, List.mem_cons_of_mem _ hy, hy'⟩
        · intro _ _ h
          exact h
      · intro _ _ h
        exact h

/-- The extensions of a block that say TLS 1.3 was selected do hold a supported_versions that says so. -/
theorem extBlock_version (isHrr : Bool) (block : Bytes) (w : TlsWork) :
    Meets (extBlock (serverHelloExt isHrr) block {} w)
      (fun a _ => a.haveVersion → ∃ y ∈ extensions block.length block, y.1 = 0x002B ∧ rd16 y.2 = a.selVer)
      (fun _ _ => True) := by
  unfold extBlock
  rw [meets_bind]
  apply (eachExt_version isHrr block.length [] block {} w).mono
  · rintro ⟨a, r⟩ v ha
    simp only [meets_bind, meets_refuse, implies_true, meets_pure, true_and]
    intro _ hv
    obtain ⟨h, -⟩ | h := ha
    · rw [h] at hv
      exact absurd hv (by decide)
    · exact h
  · intro _ _ h
    exact h

/-- What is known of a ServerHello that was read to its end. -/
structure ReadHello (s : TlsSession) (sh : ServerHello) : Prop where
  st : s.st = .waitSh
  whole : s.hsLen = s.hs.length
  isHrr : sh.isHrr = isHelloRetry s.hs
  hrrOnce : sh.isHrr → s.hrrDone = false
  sid : (serverSid s.hs).1 = some sh.sid
  version : sh.exts.haveVersion → sh.exts.selVer = 0x0304 → selectsTls13 s.hs

theorem readServerHead_meets (w : TlsWork) :
    Meets (readServerHead w)
      (fun h v => Unmoved w v ∧ w.session.st = .waitSh ∧ w.session.hsLen = w.session.hs.length ∧
        h.isHrr = isHelloRetry w.session.hs ∧ (h.isHrr → w.session.hrrDone = false) ∧
        serverSid w.session.hs = (some h.sid, h.rest))
      (fun rc v => rc.isError ∧ Unmoved w v) := by
  have hcalm := calm_of_hears hears_readServerHead w
  unfold readServerHead at hcalm ⊢
  simp only [meets_bind, meets_session, meets_refuse, meets_orRefuse, meets_update, meets_pure] at hcalm ⊢
  refine ⟨hcalm.1, fun hst => ⟨(hcalm.2 hst).1, fun rnd hrnd => ?_⟩⟩
  have hcalm := (hcalm.2 hst).2 rnd hrnd
  refine ⟨hcalm.1, fun hrr => ⟨(hcalm.2 hrr).1, fun hlen => ⟨((hcalm.2 hrr).2 hlen).1, fun sid hsid => ?_⟩⟩⟩
  have hq := ((hcalm.2 hrr).2 hlen).2 sid hsid
  simp only [ne_eq, not_or, not_not] at hst
  refine ⟨hq, hst.1, hst.2, ?_, ?_, ?_⟩
  · unfold isHelloRetry
    rw [hrnd]
    simp
  · intro h
    simp only [decide_eq_true_eq] at h
    simpa [h] using hrr
  · unfold serverSid
    rw [← hsid]

theorem readServerHello_meets (w : TlsWork) :
    Meets (readServerHello w) (fun sh v => Unmoved w v ∧ ReadHello w.session sh)
      (fun rc v => rc.isError ∧ Unmoved w v) := by
  unfold readServerHello
  rw [meets_bind]
  apply (readServerHead_meets w).mono
  · rintro h v ⟨hq, hst, hlen, hisHrr, honce, hsid⟩
    rw [meets_bind]
    have hsuite : Meets (readServerSuite h.rest v) (fun r u => Unmoved v u ∧ r = h.rest.u16.2.u8.2)
        (fun rc u => rc.isError ∧ Unmoved v u) := by
      simp [readServerSuite]
    apply hsuite.mono
    · rintro r u ⟨hu, rfl⟩
      rw [meets_bind]
      have hblock : Meets (optionalBlock h.rest.u16.2.u8.2 u)
          (fun block t => Unmoved u t ∧ block = serverBlock w.session.hs) (fun rc t => rc.isError ∧ Unmoved u t) := by
        unfold optionalBlock serverBlock
        rw [hsid]
        by_cases hleft : h.rest.u16.2.u8.2.left = 0
        · rw [if_pos hleft, if_pos hleft]
          exact ⟨unmoved_refl u, rfl⟩
        · rw [if_neg hleft, if_neg hleft]
          simp [lastBlock]
      apply hblock.mono
      · rintro block t ⟨ht, rfl⟩
        rw [meets_bind]
        apply ((calm_of_hears (frames_extBlock (hears_serverHelloExt h.isHrr) _ _) t).and (extBlock_version h.isHrr _ t)).mono
        · rintro exts x ⟨hx, hver⟩
          refine ⟨((hq.trans hu).trans ht).trans hx, hst, hlen, hisHrr, honce, by rw [hsid], ?_⟩
          intro hv hsel
          obtain ⟨y, hy, hid, hval⟩ := hver hv
          have hval' : rd16 y.2 = 0x0304 := hval.trans hsel
          unfold selectsTls13
          rw [List.any_eq_true]
          exact ⟨y, hy, by simp [hid, hval']⟩
        · rintro rc x ⟨⟨hrc, hx⟩, -⟩
          exact ⟨hrc, ((hq.trans hu).trans ht).trans hx⟩
      · rintro rc t ⟨hrc, ht⟩
        exact ⟨hrc, (hq.trans hu).trans ht⟩
    · rintro rc u ⟨hrc, hu⟩
      exact ⟨hrc, hq.trans hu⟩
  · intro rc v h
    exact h

end Qanat
