import Qanat.TlsTypes

namespace Qanat

inductive SocksPhase
  | method
  | connect
  | ready
  | failed
  deriving DecidableEq, Repr

/-- `qn_socks5_error`. -/
inductive Socks5Error
  | none
  | argument
  | version
  | auth
  | connect
  | address
  | reserved
  | overflow
  | truncated
  deriving DecidableEq, Repr

/-- `qn_socks5_action`. -/
inductive Socks5Action
  | needInput
  | sendConnect
  | ready
  | failed
  deriving DecidableEq, Repr

/-- The size of the buffer for what the server answers. -/
def socksResponseMax : Nat := 263

/-- `qn_socks5_client`; `response` holds the first `response_length` bytes of its buffer. -/
structure Socks5Client where
  phase : SocksPhase
  response : Bytes
  responseNeeded : Nat
  port : UInt16
  host : Bytes
  error : Socks5Error
  deriving DecidableEq, Repr

/-- `qn_socks5_init`; the host comes without its terminating zero. -/
def socks5Init (host : Bytes) (port : UInt16) : Option Socks5Client :=
  if port = 0 then .none
  else if host = [] ∨ 256 ≤ host.length then .none
  else if host.any fun c => c ≤ 0x20 ∨ 0x7f ≤ c then .none
  else some ⟨.method, [], 2, port, host, .none⟩

/-- What a call of `qn_socks5_feed` leaves behind; `output` is what it wrote to its output buffer. -/
structure Socks5Result where
  client : Socks5Client
  action : Socks5Action
  consumed : Nat
  output : Bytes
  deriving DecidableEq, Repr

/-- `fail`. -/
def Socks5Client.fail (c : Socks5Client) (error : Socks5Error) : Socks5Client :=
  { c with phase := .failed, error := error }

/-- The CONNECT request for a target. -/
def connectRequest (host : Bytes) (port : UInt16) : Bytes :=
  [5, 1, 0, 3, UInt8.ofNat host.length] ++ host ++ [(port >>> 8).toUInt8, port.toUInt8]

/-- `method_complete`. -/
def methodComplete (c : Socks5Client) (capacity : Nat) : Socks5Client × Socks5Action × Bytes :=
  if c.response.getD 0 0 ≠ 0x05 then (c.fail .version, .failed, [])
  else if c.response.getD 1 0 ≠ 0x00 then (c.fail .auth, .failed, [])
  else if capacity < 7 + c.host.length then (c.fail .overflow, .failed, [])
  else
    ({ c with phase := .connect, response := [], responseNeeded := 4 }, .sendConnect, connectRequest c.host c.port)

/-- `connect_header`; `none` where it needs more input. -/
def connectHeader (c : Socks5Client) : Socks5Client × Option Socks5Error :=
  if c.response.getD 0 0 ≠ 0x05 then (c, some .version)
  else if c.response.getD 1 0 ≠ 0x00 then (c, some .connect)
  else if c.response.getD 2 0 ≠ 0x00 then (c, some .reserved)
  else if c.response.getD 3 0 = 0x01 then ({ c with responseNeeded := 10 }, .none)
  else if c.response.getD 3 0 = 0x03 then ({ c with responseNeeded := 5 }, .none)
  else (c, some .address)

/-- What becomes of the length octet of a domain name. -/
def connectDomain (c : Socks5Client) : Socks5Client × Option Socks5Error :=
  if c.phase = .connect ∧ c.response.getD 3 0 = 0x03 ∧ c.responseNeeded = 5 ∧ c.response.length = 5 then
    let c := { c with responseNeeded := 7 + (c.response.getD 4 0).toNat }
    if socksResponseMax < c.responseNeeded ∨ c.response.getD 4 0 = 0 then (c, some .address) else (c, .none)
  else (c, .none)

/-- `connect_complete`. -/
def connectComplete (c : Socks5Client) : Socks5Client :=
  { c with phase := .ready, error := .none }

/-- The loop of `qn_socks5_feed`, with the bytes it leaves. -/
def socksLoop (capacity : Nat) : Socks5Client → Bytes → Socks5Client × Socks5Action × Bytes × Bytes
  | c, [] => (c, .needInput, [], [])
  | c, b :: rest =>
    if socksResponseMax ≤ c.response.length then (c.fail .overflow, .failed, [], b :: rest)
    else
      let c := { c with response := c.response ++ [b] }
      if c.response.length < c.responseNeeded then socksLoop capacity c rest
      else if c.phase = .method then
        let (c, action, output) := methodComplete c capacity
        if rest ≠ [] then (c.fail .overflow, .failed, output, rest) else (c, action, output, rest)
      else
        let (c, error) := if c.responseNeeded = 4 then connectHeader c else (c, .none)
        match error with
        | some error => (c.fail error, .failed, [], rest)
        | .none =>
          let (c, error) := connectDomain c
          match error with
          | some error => (c.fail error, .failed, [], rest)
          | .none =>
            if c.phase = .connect ∧ c.response.length = c.responseNeeded ∧ 5 < c.responseNeeded then
              let c := connectComplete c
              if rest ≠ [] then (c.fail .overflow, .failed, [], rest) else (c, .ready, [], rest)
            else socksLoop capacity c rest

/-- `qn_socks5_feed`. -/
def socks5Feed (c : Socks5Client) (input : Bytes) (capacity : Nat) : Socks5Result :=
  if c.phase = .ready then
    if input ≠ [] then ⟨c.fail .overflow, .failed, 0, []⟩ else ⟨c, .ready, 0, []⟩
  else if c.phase = .failed then ⟨c, .failed, 0, []⟩
  else
    let (c, action, output, rest) := socksLoop capacity c input
    ⟨c, action, input.length - rest.length, output⟩

/-- `qn_socks5_eof`. -/
def socks5Eof (c : Socks5Client) : Socks5Client × Socks5Action :=
  if c.phase = .ready then (c, .ready) else (c.fail .truncated, .failed)

/-- A client behind a row of calls, and the CONNECT requests it asked to be sent. -/
structure Socks5Run where
  client : Socks5Client
  requests : List Bytes

/-- A call of `qn_socks5_feed` with an output buffer of this size. -/
def Socks5Run.feed (r : Socks5Run) (call : Bytes × Nat) : Socks5Run :=
  let result := socks5Feed r.client call.1 call.2
  ⟨result.client, r.requests ++ if result.action = .sendConnect then [result.output] else []⟩

def socks5Run (c : Socks5Client) (calls : List (Bytes × Nat)) : Socks5Run :=
  calls.foldl Socks5Run.feed ⟨c, []⟩

end Qanat
