import Qanat.ExportText
import Qanat.TunnelSound
import Qanat.StoreTrip
import Qanat.CfRecord
import Qanat.TlsTypes

namespace Qanat

/-- The name of a profile in `PROFILES`. -/
def tlsFpStr : TlsFp → Bytes
  | .chrome => word "chrome-android-151"
  | .firefox => word "firefox-android-153"
  | .safari => word "safari-ios-26"
  | .random => word "random"

/-- `qn_classification_has_marker` of `qn_cf_record_classification`. -/
def CfRecord.hasMarker (r : CfRecord) : Bool :=
  r.terminalOutcome = termSuccess && rungEdge ≤ r.highestRungReached && r.highestRungReached < rungCount

def configExportable (r : CfRecord) : Bool :=
  r.verified && r.hasMarker

/-- The part of a scan and of its configuration that `qn_export_config` reads. -/
structure ExportScan where
  sni : Option Bytes
  fingerprint : TlsFp
  tunnelLink : Option Bytes
  planValid : Bool
  outputLimit : UInt64
  records : List CfRecord

section Export

variable (inet : InetText) (build : Bytes)

def ExportScan.limit (s : ExportScan) : Nat :=
  if s.planValid then s.outputLimit.toNat else s.records.length

/-- The loop of `config_export_count`. -/
def exportCountFrom (limit count : Nat) : List CfRecord → Nat
  | [] => count
  | r :: rs =>
    if count < limit then exportCountFrom limit (if configExportable r then count + 1 else count) rs else count

def configExportCount (s : ExportScan) : Nat :=
  exportCountFrom s.limit 0 s.records

def defaultSni : Bytes := word "www.cloudflare.com"

def ExportScan.sniName (s : ExportScan) : Bytes :=
  s.sni.getD defaultSni

def ExportScan.templateSni (s : ExportScan) : Bytes :=
  if s.sniName ≠ defaultSni then s.sniName else word "REPLACE_SNI"

/-- `qn_strlcpy` into `capacity` bytes. -/
def strlcpyText (capacity : Nat) (s : Bytes) : Bytes :=
  s.take (capacity - 1)

def templateLink (s : ExportScan) : TunnelLink where
  protocol := .vless
  network := .ws
  security := .tls
  port := 443
  grpcMulti := false
  secret := []
  address := strlcpyText tunnelHostSize (word "origin.invalid")
  sni := strlcpyText tunnelHostSize s.templateSni
  host := strlcpyText tunnelHostSize s.templateSni
  path := strlcpyText tunnelPathSize (word "/REPLACE_PATH")
  flow := []
  alpn := []
  fingerprint := strlcpyText tunnelTokenSize (tlsFpStr s.fingerprint)
  serviceName := []
  mode := strlcpyText tunnelTokenSize (word "auto")

/-- The link of the configurations and their mode; `none` where the link of the settings does not parse. -/
def exportLink (s : ExportScan) : Option (TunnelLink × TunnelConfigMode) :=
  match s.tunnelLink with
  | some text =>
    match tunnelLinkParse inet text with
    | .ok link => some (link, .redacted)
    | .error _ => none
  | none => some (templateLink s, .template)

def socksPort (emitted : Nat) : UInt16 :=
  UInt16.ofNat (21080 + emitted)

def configLine (config : Bytes) (more : Bool) : Bytes :=
  word "    " ++ config ++ (if more then [chComma] else []) ++ [chLf]

/-- The loop of `qn_export_config` over the records; `none` is the aborted output. -/
def xrayConfigs (link : TunnelLink) (mode : TunnelConfigMode) (n : Nat) : Nat → List CfRecord → Option Bytes
  | _, [] => some []
  | emitted, r :: rs =>
    if emitted < n then
      if configExportable r then
        match tunnelConfigBuild inet ⟨link, addrStr inet r.addr, socksPort emitted, mode⟩ tunnelConfigMax with
        | .error _ => none
        | .ok config =>
          if 0 ∈ config then none
          else (xrayConfigs link mode n (emitted + 1) rs).map (configLine config (emitted + 1 < n) ++ ·)
      else xrayConfigs link mode n emitted rs
    else some []

def xrayComment : TunnelConfigMode → Bytes
  | .template => word "qanat templates; provide a tunnel link for real settings"
  | _ => word "qanat configs; credentials intentionally redacted"

def xrayHeader (mode : TunnelConfigMode) : Bytes :=
  word "\x7b\n  \"_comment\": " ++ jsonStr (xrayComment mode) ++ word ",\n" ++
    word "  \"_build_fingerprint\": \"" ++ build ++ word "\",\n" ++
    word "  \"xray_runtime\": \"external-optional\",\n" ++ word "  \"configs\": [\n"

def xrayTrailer : Bytes :=
  word "  ]\n\x7d\n"

def xrayNone : Bytes :=
  word ("\x7b\n  \"_comment\": \"no verified address exposed a Cloudflare marker\",\n" ++
    "  \"configs\": []\n\x7d\n")

/-- `qn_export_config` in the xray format when every write succeeds: the document of a success. -/
def exportXray (s : ExportScan) : Option Bytes :=
  let n := configExportCount s
  if !validHostname s.sniName then none
  else if n = 0 then some xrayNone
  else
    match exportLink inet s with
    | none => none
    | some (link, mode) =>
      (xrayConfigs inet link mode n 0 s.records).map fun configs => xrayHeader build mode ++ configs ++ xrayTrailer

end Export

section Exported

/-- The records to export, in their order. -/
def exported (s : ExportScan) : List CfRecord :=
  (s.records.filter configExportable).take s.limit

theorem exportCountFrom_eq (limit : Nat) (rs : List CfRecord) {count : Nat} (h : count ≤ limit) :
    exportCountFrom limit count rs = count + ((rs.filter configExportable).take (limit - count)).length := by
  induction rs generalizing count with
  | nil => simp [exportCountFrom]
  | cons r rs ih =>
    rw [exportCountFrom]
    by_cases hc : count < limit
    · obtain ⟨k, hk⟩ := Nat.exists_eq_add_of_lt hc
      have hk' : limit - count = k + 1 := by omega
      rw [if_pos hc]
      by_cases hr : configExportable r = true
      · rw [if_pos hr, ih (by omega), List.filter_cons_of_pos hr, hk', List.take_succ_cons, List.length_cons,
          show limit - (count + 1) = k by omega]
        omega
      · rw [if_neg hr, ih h, List.filter_cons_of_neg hr]
    · rw [if_neg hc, show limit - count = 0 by omega]
      rfl

theorem configExportCount_eq (s : ExportScan) : configExportCount s = (exported s).length := by
  rw [configExportCount, exportCountFrom_eq _ _ (Nat.zero_le _), Nat.zero_add, Nat.sub_zero]
  rfl

end Exported

section Link

variable {inet : InetText} {s : ExportScan} {link : TunnelLink} {mode : TunnelConfigMode}

theorem strlcpyText_fits {capacity : Nat} {t : Bytes} (h : TextFits capacity t) : strlcpyText capacity t = t :=
  List.take_of_length_le (Nat.le_sub_one_of_lt h.length)

theorem templateSni_fits (h : validHostname s.sniName = true) :
    s.templateSni ≠ [] ∧ TextFits tunnelHostSize s.templateSni := by
  unfold ExportScan.templateSni
  split
  next => exact validHostname_fits h
  next => exact ⟨by decide, by decide, utf8Valid_of_all rfl⟩

theorem tlsFpStr_fits (fp : TlsFp) : TextFits tunnelTokenSize (tlsFpStr fp) := by
  cases fp <;> exact ⟨by decide, utf8Valid_of_all rfl⟩

/-- What the loop needs of its link. -/
structure ExportReady (link : TunnelLink) (kind : TunnelConfigMode) : Prop extends LinkTexts link where
  alpn_chars : ∀ c ∈ link.alpn, 0x20 ≤ c ∧ c < 0x7F
  valid : linkValid link kind = true
  hidden : kind ≠ .live

theorem templateLink_ready (h : validHostname s.sniName = true) : ExportReady (templateLink s) .template := by
  obtain ⟨hne, hsni⟩ := templateSni_fits h
  have hpath : TextFits tunnelPathSize (word "/REPLACE_PATH") := ⟨by decide, utf8Valid_of_all rfl⟩
  have hmode : TextFits tunnelTokenSize (word "auto") := ⟨by decide, by decide⟩
  have hsni' := strlcpyText_fits hsni
  refine ⟨⟨textFits_nil (by decide), ?_, ?_, ?_, textFits_nil (by decide), textFits_nil (by decide), ?_,
    textFits_nil (by decide), ?_, by change 443 < 65536; decide⟩, fun c hc => absurd hc List.not_mem_nil, ?_, nofun⟩
  · exact (congrArg _ hsni').mpr hsni
  · exact (congrArg _ hsni').mpr hsni
  · exact (congrArg _ (strlcpyText_fits hpath)).mpr hpath
  · exact (congrArg _ (strlcpyText_fits (tlsFpStr_fits s.fingerprint))).mpr (tlsFpStr_fits s.fingerprint)
  · exact (congrArg _ (strlcpyText_fits hmode)).mpr hmode
  · have hne' : ((templateLink s).sni != []) = true := by
      rw [show (templateLink s).sni = s.templateSni from hsni']
      simpa using hne
    have htransport : transportFieldsValid (templateLink s) = true := rfl
    have hmodes : modeValid (templateLink s) = true := rfl
    unfold linkValid
    rw [hne', htransport, hmodes]
    rfl

theorem exportLink_ready (hsni : validHostname s.sniName = true) (h : exportLink inet s = some (link, mode)) :
    ExportReady link mode := by
  unfold exportLink at h
  split at h
  next =>
    split at h
    next hparse =>
      cases h
      have hready := tunnelLinkParse_ready hparse
      exact ⟨hready.toLinkTexts, hready.alpn_chars, linkValid_ready hready _, nofun⟩
    next => cases h
  next =>
    cases h
    exact templateLink_ready hsni

end Link

end Qanat
