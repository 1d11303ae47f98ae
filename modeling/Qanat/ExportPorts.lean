import Qanat.ExportXray

namespace Qanat

section Config

variable {inet : InetText} {link : TunnelLink} {mode : TunnelConfigMode}

theorem addrStr_fits (hi : inet.Sound) (a : Addr) : TextFits tunnelHostSize (addrStr inet a) := by
  refine ⟨(length_addrStr hi a).trans (by decide), utf8Valid_of_printable fun c hc => ?_⟩
  have hchar : isInetChar c = true := by
    cases a with
    | v4 a => exact isInetChar_ipv4Str hc
    | v6 b => exact hi.chars_ntop6 b c hc
  simp only [isInetChar, isDigit, Bool.or_eq_true, Bool.and_eq_true, decide_eq_true_eq, beq_iff_eq] at hchar
  obtain ((h | h) | rfl) | rfl := hchar
  · exact ⟨UInt8.le_trans (by decide) h.1, UInt8.lt_of_le_of_lt h.2 (by decide)⟩
  · exact ⟨UInt8.le_trans (by decide) h.1, UInt8.lt_of_le_of_lt h.2 (by decide)⟩
  · decide
  · decide

theorem candidateValid_addrStr (hi : inet.Sound) (a : Addr) : candidateValid inet (addrStr inet a) = some true := by
  have hlen := length_addrStr hi a
  have hpton : (inet.pton4 (addrStr inet a)).isSome ∨ (inet.pton6 (addrStr inet a)).isSome := by
    cases a with
    | v4 a =>
      rw [addrStr, hi.pton4_ipv4Str]
      exact .inl rfl
    | v6 b =>
      rw [addrStr, hi.pton6_ntop6]
      exact .inr rfl
  unfold candidateValid
  rw [if_neg, if_pos hpton]
  rintro (hnil | hlong)
  · exact (plainWord_addrStr hi a).ne_nil hnil
  · exact absurd (hlong.trans hlen) (by decide)

/-- The configuration of a record behind a local port. -/
def xrayConfig (inet : InetText) (link : TunnelLink) (mode : TunnelConfigMode) (r : CfRecord) (port : UInt16) : Bytes :=
  (configTree link (addrStr inet r.addr) (configSecret link mode) port.toNat true).render

theorem xrayConfig_built (hi : inet.Sound) (h : ExportReady link mode) (r : CfRecord) {port : UInt16} (hp : port ≠ 0) :
    tunnelConfigBuild inet ⟨link, addrStr inet r.addr, port, mode⟩ tunnelConfigMax =
      .ok (xrayConfig inet link mode r port) :=
  tunnelConfigBuild_valid h.toLinkTexts h.valid (fun hm => absurd hm h.hidden) (addrStr_fits hi r.addr).length
    (candidateValid_addrStr hi r.addr) hp

theorem xrayConfig_text (hi : inet.Sound) (h : ExportReady link mode) (r : CfRecord) (port : UInt16) :
    0 ∉ xrayConfig inet link mode r port := by
  have hvalid : utf8Valid (xrayConfig inet link mode r port) = true :=
    Json.render_of_all utf8Valid_spreads _
      (all_config h.toLinkTexts h.alpn_chars (addrStr_fits hi r.addr).valid
        (configSecret_fits h.toLinkTexts mode).valid _ _)
  exact fun hmem => absurd (utf8Valid_printable hvalid 0 hmem) (by decide)

end Config

section Ports

/-- How many ports stand from the first local port on. -/
def portRoom : Nat := 65536 - 21080

theorem socksPort_toNat {e : Nat} (h : e < portRoom) : (socksPort e).toNat = 21080 + e := by
  unfold portRoom at h
  rw [socksPort, UInt16.toNat_ofNat', Nat.mod_eq_of_lt (by omega)]

theorem socksPort_ne {e : Nat} (h : e < portRoom) : socksPort e ≠ 0 := by
  intro h0
  have := socksPort_toNat h
  rw [h0] at this
  exact absurd this (by change ¬0 = _; omega)

theorem socksPort_room : socksPort portRoom = 0 :=
  rfl

theorem socksPorts_nodup {n : Nat} (h : n ≤ portRoom) : ((List.range n).map socksPort).Nodup := by
  refine List.Nodup.map_on (fun x hx y hy he => ?_) List.nodup_range
  have hx' := (List.mem_range.mp hx).trans_le h
  have hy' := (List.mem_range.mp hy).trans_le h
  have := congrArg UInt16.toNat he
  rw [socksPort_toNat hx', socksPort_toNat hy'] at this
  omega

theorem socksPorts_ne {n : Nat} (h : n ≤ portRoom) : 0 ∉ (List.range n).map socksPort := by
  rintro hmem
  obtain ⟨k, hk, h0⟩ := List.mem_map.mp hmem
  exact socksPort_ne ((List.mem_range.mp hk).trans_le h) h0

end Ports

section Loop

variable {inet : InetText} {link : TunnelLink} {mode : TunnelConfigMode}

/-- The lines of records whose configurations are built, behind `e` others. -/
def xrayLines (f : CfRecord → UInt16 → Bytes) (n : Nat) : Nat → List CfRecord → Bytes
  | _, [] => []
  | e, r :: rs => configLine (f r (socksPort e)) (e + 1 < n) ++ xrayLines f n (e + 1) rs

/-- The loop writes the exportable records that it has ports for, and fails at the first one without a port. -/
theorem xrayConfigs_eq (hi : inet.Sound) (h : ExportReady link mode) (n : Nat) (rs : List CfRecord) {e : Nat}
    (he : e ≤ portRoom) :
    xrayConfigs inet link mode n e rs =
      if e + ((rs.filter configExportable).take (n - e)).length ≤ portRoom then
        some (xrayLines (xrayConfig inet link mode) n e ((rs.filter configExportable).take (n - e)))
      else none := by
  induction rs generalizing e with
  | nil => simp [xrayConfigs, xrayLines, he]
  | cons r rs ih =>
    rw [xrayConfigs]
    by_cases hn : e < n
    · obtain ⟨k, hk⟩ := Nat.exists_eq_add_of_lt hn
      rw [if_pos hn]
      by_cases hr : configExportable r = true
      · rw [if_pos hr, List.filter_cons_of_pos hr, show n - e = k + 1 by omega, List.take_succ_cons, List.length_cons]
        obtain rfl | hlt := Nat.eq_or_lt_of_le he
        · have hzero : tunnelConfigBuild inet ⟨link, addrStr inet r.addr, socksPort portRoom, mode⟩ tunnelConfigMax =
              .error .argument := if_pos (.inr (.inr socksPort_room))
          rw [hzero, if_neg (by omega)]
        · rw [xrayConfig_built hi h r (socksPort_ne hlt)]
          dsimp only
          rw [if_neg (xrayConfig_text hi h r _), ih hlt, show n - (e + 1) = k by omega]
          by_cases hroom : e + 1 + ((rs.filter configExportable).take k).length ≤ portRoom
          · rw [if_pos hroom, if_pos (by omega)]
            rfl
          · rw [if_neg hroom, if_neg (by omega)]
            rfl
      · rw [if_neg hr, ih he, List.filter_cons_of_neg hr]
    · rw [if_neg hn, show n - e = 0 by omega, List.take_zero]
      exact (if_pos he).symm

/-- The lines are the configurations with commas between them. -/
theorem xrayLines_eq (f : CfRecord → UInt16 → Bytes) {n e : Nat} {rs : List CfRecord} (h : e + rs.length = n)
    (hne : rs ≠ []) :
    xrayLines f n e rs =
      [chComma, chLf].intercalate (((rs.zipWith f ((List.range' e rs.length).map socksPort))).map (word "    " ++ ·)) ++
        [chLf] := by
  induction rs generalizing e with
  | nil => exact absurd rfl hne
  | cons r rs ih =>
    cases rs with
    | nil =>
      have hlast : ¬e + 1 < n := by
        rw [List.length_singleton] at h
        omega
      simp [xrayLines, configLine, hlast]
    | cons r' rs =>
      have hmore : e + 1 < n := by
        rw [List.length_cons, List.length_cons] at h
        omega
      have hrest : e + 1 + (r' :: rs).length = n := by
        rw [← h, List.length_cons, List.length_cons, List.length_cons]
        omega
      rw [xrayLines, ih hrest (List.cons_ne_nil _ _)]
      simp [configLine, hmore, List.range'_succ, List.intercalate_cons_cons]

end Loop

section Document

variable (inet : InetText) (build : Bytes)

/-- The document of some configurations: one a line, and commas between them. -/
def xrayDocument (mode : TunnelConfigMode) (configs : List Bytes) : Bytes :=
  if configs = [] then xrayNone
  else
    xrayHeader build mode ++ ([chComma, chLf].intercalate (configs.map (word "    " ++ ·)) ++ [chLf]) ++ xrayTrailer

/-- The text holds one configuration for each record to export, in their order, behind local ports of their own. -/
def XrayComplete (s : ExportScan) (text : Bytes) : Prop :=
  ∃ link mode ports, exportLink inet s = some (link, mode) ∧ ports.length = (exported s).length ∧ ports.Nodup ∧
    0 ∉ ports ∧ text = xrayDocument build mode ((exported s).zipWith (xrayConfig inet link mode) ports)

variable {inet build} {s : ExportScan}

theorem exportXray_eq (hi : inet.Sound) (hsni : validHostname s.sniName = true) {link : TunnelLink}
    {mode : TunnelConfigMode} (hlink : exportLink inet s = some (link, mode)) :
    exportXray inet build s =
      if (exported s).length ≤ portRoom then
        some (xrayDocument build mode
          ((exported s).zipWith (xrayConfig inet link mode) ((List.range (exported s).length).map socksPort)))
      else none := by
  have htake : ((s.records.filter configExportable).take (exported s).length) = exported s := by
    rw [exported, List.length_take, List.take_eq_take_iff]
    omega
  unfold exportXray
  simp only [configExportCount_eq, hsni, Bool.not_true, Bool.false_eq_true, if_false, hlink]
  by_cases hn : (exported s).length = 0
  · rw [if_pos hn, if_pos (by omega), List.length_eq_zero_iff.mp hn]
    rfl
  · rw [if_neg hn, xrayConfigs_eq hi (exportLink_ready hsni hlink) _ _ (Nat.zero_le _), Nat.sub_zero, htake,
      Nat.zero_add]
    by_cases hroom : (exported s).length ≤ portRoom
    · have hne : exported s ≠ [] := fun h => hn (List.length_eq_zero_iff.mpr h)
      rw [if_pos hroom, if_pos hroom, xrayLines_eq _ (Nat.zero_add _) hne, xrayDocument, if_neg, List.range_eq_range',
        Option.map_some]
      intro hnil
      have := congrArg List.length hnil
      rw [List.length_zipWith, List.length_map, List.length_range, Nat.min_self] at this
      exact hn this
    · rw [if_neg hroom, if_neg hroom]
      rfl

/-- A verified record of an edge. -/
def edgeRecord (a : UInt32) : CfRecord :=
  ⟨.v4 a, 0, 0, 0, 0, 0, 0, 0, 0, 0, 0, 0, 0, rungEdge, termSuccess, 0, [], 0, 0, true, tunnelUntested⟩

/-- The export succeeds with its configurations exactly while there are ports for the records. -/
theorem xray_export_exact (hi : inet.Sound) (hsni : validHostname s.sniName = true)
    (hlink : (exportLink inet s).isSome = true) :
    (∃ text, exportXray inet build s = some text ∧ XrayComplete inet build s text) ↔
      (exported s).length ≤ portRoom := by
  obtain ⟨⟨link, mode⟩, hlink⟩ := Option.isSome_iff_exists.mp hlink
  rw [exportXray_eq hi hsni hlink]
  constructor
  · rintro ⟨text, htext, -⟩
    by_contra hroom
    rw [if_neg hroom] at htext
    cases htext
  · intro hroom
    exact ⟨_, if_pos hroom, link, mode, _, hlink, by rw [List.length_map, List.length_range],
      socksPorts_nodup hroom, socksPorts_ne hroom, rfl⟩

/-- A scan of two verified addresses for a tunnel of the user. -/
def twoConfigs : ExportScan :=
  ⟨none, .chrome, some (word "trojan://p%22s%5Cs@origin.example:443?type=tcp&security=tls"), true, 20,
    [edgeRecord 0xC0000201, edgeRecord 0xC0000202]⟩

theorem xray_export_twoConfigs :
    ∃ text, exportXray plainInet (word "unrecorded") twoConfigs = some text ∧
      XrayComplete plainInet (word "unrecorded") twoConfigs text := by
  have hlink : exportLink plainInet twoConfigs = some (sampleLink, .redacted) := by
    unfold exportLink twoConfigs
    simp only [tunnelLinkParse_sampleLink]
  exact (xray_export_exact plainInet_sound rfl (by rw [hlink]; rfl)).mpr (by decide)

/-- One record more than there are ports. -/
def crowdedScan : ExportScan :=
  ⟨none, .chrome, none, true, 100000, List.replicate (portRoom + 1) (edgeRecord 0xC0000201)⟩

theorem xray_export_crowded :
    exportXray plainInet (word "unrecorded") crowdedScan = none ∧ (exported crowdedScan).length = 44457 ∧
      crowdedScan.records.length ≤ crowdedScan.limit ∧ validHostname crowdedScan.sniName = true ∧
      crowdedScan.tunnelLink = none := by
  have hexported : exported crowdedScan = List.replicate (portRoom + 1) (edgeRecord 0xC0000201) := by
    rw [exported, crowdedScan, List.filter_replicate, if_pos (by decide), List.take_replicate]
    rfl
  have hlen : (exported crowdedScan).length = portRoom + 1 := by rw [hexported, List.length_replicate]
  have hsni : validHostname crowdedScan.sniName = true := by
    change validHostname defaultSni = true
    rfl
  refine ⟨?_, hlen, ?_, hsni, rfl⟩
  · rw [exportXray_eq plainInet_sound hsni rfl, if_neg (by rw [hlen]; exact Nat.not_succ_le_self _)]
  · rw [crowdedScan, List.length_replicate]
    decide

end Document

end Qanat
