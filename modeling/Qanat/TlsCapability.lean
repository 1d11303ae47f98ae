import Qanat.TlsHandler

namespace Qanat

inductive TlsCertKey
  | none
  | rsa
  | ecdsa
  deriving DecidableEq, Repr

structure SuiteCapability where
  suite : Nat
  version : Nat
  hash : HashId
  aead : AeadId
  certKey : TlsCertKey

def suiteCapabilities : List SuiteCapability :=
  [⟨0x1301, 0x0304, .sha256, .aes128gcm, .none⟩,
   ⟨0x1302, 0x0304, .sha384, .aes256gcm, .none⟩,
   ⟨0x1303, 0x0304, .sha256, .chacha20poly1305, .none⟩,
   ⟨0xC02B, 0x0303, .sha256, .aes128gcm, .ecdsa⟩,
   ⟨0xC02F, 0x0303, .sha256, .aes128gcm, .rsa⟩,
   ⟨0xC02C, 0x0303, .sha384, .aes256gcm, .ecdsa⟩,
   ⟨0xC030, 0x0303, .sha384, .aes256gcm, .rsa⟩,
   ⟨0xCCA9, 0x0303, .sha256, .chacha20poly1305, .ecdsa⟩,
   ⟨0xCCA8, 0x0303, .sha256, .chacha20poly1305, .rsa⟩]

/-- `qn_tls_capability_suite`. -/
def capabilitySuite (suite version : Nat) : Option SuiteCapability :=
  suiteCapabilities.find? fun c => c.suite = suite ∧ c.version = version

def groupX25519Mlkem768 : Nat := 0x11EC

def groupX25519 : Nat := 0x001D

def groupP256 : Nat := 0x0017

/-- `qn_tls_capability_group`. -/
def capabilityGroup (group : Nat) : Bool :=
  group = groupX25519Mlkem768 ∨ group = groupX25519 ∨ group = groupP256

/-- `qn_tls_capability_sigalg`. -/
def capabilitySigalg (sigalg : Nat) : Option TlsCertKey :=
  if sigalg = 0x0403 ∨ sigalg = 0x0503 ∨ sigalg = 0x0603 then some .ecdsa
  else if sigalg = 0x0804 ∨ sigalg = 0x0805 ∨ sigalg = 0x0806 then some .rsa
  else none

def certCompressionOffered (s : TlsSession) (algorithm : Nat) : Bool :=
  match s.fp with
  | .chrome => algorithm = 2
  | .firefox => 1 ≤ algorithm ∧ algorithm ≤ 3
  | .safari => algorithm = 1
  | .random => algorithm = 2

/-- `alps_setting_valid`. -/
def alpsSettingValid (setting : Bytes) : Bool :=
  let id := rd16 setting
  let value := rd16 (setting.drop 2) * 65536 + rd16 (setting.drop 4)
  !(id = 2 && 1 < value) && !(id = 4 && 0x7FFFFFFF < value) &&
    (id ≠ 5 || (16384 ≤ value && value ≤ 16777215))

/-- The settings of a frame, six bytes each. -/
def alpsSettingsValid : Nat → Bytes → Bool
  | 0, _ => true
  | fuel + 1, p =>
    if p = [] then true else alpsSettingValid (p.take 6) && alpsSettingsValid fuel (p.drop 6)

/-- The loop of `alps_h2_valid` over the frames. -/
def alpsFramesValid : Nat → Bytes → Bool
  | 0, _ => true
  | fuel + 1, p =>
    if p = [] then true
    else if p.length < 9 then false
    else
      let frameLen := rd24 p
      let type := byteAt p 3
      let flags := byteAt p 4
      let stream := rd16 (p.drop 5) * 65536 + rd16 (p.drop 7)
      let frame := (p.drop 9).take frameLen
      if 0x80 ≤ byteAt p 5 ∨ p.length - 9 < frameLen then false
      else if type = 4 ∧ (stream ≠ 0 ∨ flags ≠ 0 ∨ frameLen % 6 ≠ 0) then false
      else if type = 4 ∧ ¬ alpsSettingsValid frameLen frame then false
      else alpsFramesValid fuel ((p.drop 9).drop frameLen)

def alpsH2Valid (p : Bytes) : Bool :=
  alpsFramesValid p.length p

/-- The loop of `ech_config_extensions_valid`. -/
def echExtensionsValid : Nat → Bytes → Bool
  | 0, _ => true
  | fuel + 1, p =>
    if p = [] then true
    else if p.length < 4 then false
    else if p.length - 4 < rd16 (p.drop 2) then false
    else echExtensionsValid fuel ((p.drop 4).drop (rd16 (p.drop 2)))

/-- `ech_config_valid`. -/
def echConfigValid (version : Nat) (p : Bytes) : Bool :=
  if version ≠ 0xFE0D then true
  else
    let (_, r) := (Br.init p).u8
    let (_, r) := r.u16
    let (publicKeyLen, r) := r.u16
    let (publicKey, r) := r.take publicKeyLen
    if publicKeyLen = 0 ∨ publicKey = none then false
    else
      let (cipherSuitesLen, r) := r.u16
      let (cipherSuites, r) := r.take cipherSuitesLen
      if cipherSuitesLen = 0 ∨ cipherSuitesLen % 4 ≠ 0 ∨ cipherSuites = none then false
      else
        let (_, r) := r.u8
        let (publicNameLen, r) := r.u8
        let (publicName, r) := r.take publicNameLen
        if publicNameLen = 0 ∨ publicName = none then false
        else
          let (extensionsLen, r) := r.u16
          match r.take extensionsLen with
          | (some extensions, r) =>
            !r.err && r.left = 0 && echExtensionsValid extensions.length extensions
          | (none, _) => false

/-- The loop of `ech_config_list_valid` past the list length. -/
def echConfigsValid : Nat → Bytes → Bool
  | 0, _ => true
  | fuel + 1, p =>
    if p = [] then true
    else if p.length < 4 then false
    else
      let configLen := rd16 (p.drop 2)
      let config := (p.drop 4).take configLen
      if (p.drop 4).length < configLen ∨ ¬ echConfigValid (rd16 p) config then false
      else echConfigsValid fuel ((p.drop 4).drop configLen)

def echConfigListValid (p : Bytes) : Bool :=
  if p.length < 6 ∨ rd16 p = 0 ∨ rd16 p ≠ p.length - 2 then false
  else echConfigsValid p.length (p.drop 2)

end Qanat
