import Qanat.TlsTypes
import Qanat.General.Framing

namespace Qanat

inductive CertScanState
  | listLen
  | entryLen
  | entryBody
  | done
  | failed
  deriving DecidableEq, Repr

/-- `qn_cert_scan`; `acc` holds the length bytes collected so far. -/
structure CertScan where
  total : Nat
  seen : Nat
  listLeft : Nat
  entryLeft : Nat
  count : Nat
  acc : Bytes
  state : CertScanState
  deriving DecidableEq

def certScanInit (total max : Nat) : CertScan :=
  ⟨total, 0, 0, 0, 0, [], if total < 3 ∨ max < total then .failed else .listLen⟩

def CertScan.bad (c : CertScan) : Bool :=
  c.state = .failed

/-- One byte of `qn_cert_scan_push`, and each subtraction it makes: from what, and how much. -/
def CertScan.read (c : CertScan) (b : UInt8) : CertScan × List (Nat × Nat) :=
  if c.seen = c.total then ({ c with state := .failed }, [])
  else
    let c := { c with seen := c.seen + 1 }
    let acc := c.acc ++ [b]
    match c.state with
    | .listLen =>
      if acc.length < 3 then ({ c with acc := acc }, [])
      else if rd24 acc = 0 ∨ rd24 acc + 3 ≠ c.total then ({ c with acc := [], state := .failed }, [])
      else ({ c with acc := [], listLeft := rd24 acc, state := .entryLen }, [])
    | .entryLen =>
      if acc.length < 3 then ({ c with acc := acc }, [])
      else if c.listLeft < 3 ∨ rd24 acc = 0 then ({ c with acc := [], state := .failed }, [])
      else if c.listLeft - 3 < rd24 acc then ({ c with acc := [], state := .failed }, [(c.listLeft, 3)])
      else
        ({ c with acc := [], listLeft := c.listLeft - (3 + rd24 acc), entryLeft := rd24 acc, state := .entryBody },
          [(c.listLeft, 3), (c.listLeft, 3 + rd24 acc)])
    | .entryBody =>
      if c.entryLeft - 1 = 0 then
        ({ c with entryLeft := 0, count := c.count + 1, state := if c.listLeft = 0 then .done else .entryLen },
          [(c.entryLeft, 1)])
      else ({ c with entryLeft := c.entryLeft - 1 }, [(c.entryLeft, 1)])
    | .done | .failed => ({ c with state := .failed }, [])

def CertScan.byte (c : CertScan) (b : UInt8) : CertScan :=
  (c.read b).1

/-- `qn_cert_scan_push`: the loop ends, and the push returns false, when the scan has failed. -/
def certScanPush : CertScan → Bytes → CertScan × Bool :=
  Scanner.push CertScan.bad CertScan.byte

def CertScan.isDone (c : CertScan) : Bool :=
  c.state = .done ∧ c.seen = c.total ∧ 0 < c.count

inductive Cert13ScanState
  | contextLen
  | listLen
  | entryLen
  | entryBody
  | extLen
  | extBody
  | done
  | failed
  deriving DecidableEq, Repr

/-- `qn_cert13_scan`. -/
structure Cert13Scan where
  total : Nat
  seen : Nat
  listLeft : Nat
  entryLeft : Nat
  extensionsLeft : Nat
  count : Nat
  acc : Bytes
  state : Cert13ScanState
  deriving DecidableEq

def cert13ScanInit (total max : Nat) : Cert13Scan :=
  ⟨total, 0, 0, 0, 0, 0, [], if total < 10 ∨ max < total then .failed else .contextLen⟩

def Cert13Scan.bad (c : Cert13Scan) : Bool :=
  c.state = .failed

/-- A certificate entry is complete: the next one starts, or the list has ended. -/
def Cert13Scan.entryDone (c : Cert13Scan) : Cert13Scan :=
  { c with count := c.count + 1, state := if c.listLeft = 0 then .done else .entryLen }

/-- One byte of `qn_cert13_scan_push`, and each subtraction it makes. -/
def Cert13Scan.read (c : Cert13Scan) (b : UInt8) : Cert13Scan × List (Nat × Nat) :=
  if c.seen = c.total ∨ c.state = .done then ({ c with state := .failed }, [])
  else
    let c := { c with seen := c.seen + 1 }
    let acc := c.acc ++ [b]
    match c.state with
    | .contextLen => if b = 0 then ({ c with state := .listLen }, []) else ({ c with state := .failed }, [])
    | .listLen =>
      if acc.length ≠ 3 then ({ c with acc := acc }, [])
      else if rd24 acc = 0 ∨ rd24 acc + 4 ≠ c.total then ({ c with acc := [], state := .failed }, [])
      else ({ c with acc := [], listLeft := rd24 acc, state := .entryLen }, [])
    | .entryLen =>
      if acc.length ≠ 3 then ({ c with acc := acc }, [])
      else if c.listLeft < 5 ∨ rd24 acc = 0 then ({ c with acc := [], state := .failed }, [])
      else if c.listLeft - 5 < rd24 acc then ({ c with acc := [], state := .failed }, [(c.listLeft, 5)])
      else
        ({ c with acc := [], listLeft := c.listLeft - 3, entryLeft := rd24 acc, state := .entryBody },
          [(c.listLeft, 5), (c.listLeft, 3)])
    | .entryBody =>
      let taken := [(c.listLeft, 1), (c.entryLeft, 1)]
      let c := { c with listLeft := c.listLeft - 1, entryLeft := c.entryLeft - 1 }
      if c.entryLeft = 0 then ({ c with state := .extLen }, taken) else (c, taken)
    | .extLen =>
      if c.listLeft = 0 then ({ c with state := .failed }, [])
      else
        let taken := [(c.listLeft, 1)]
        let c := { c with listLeft := c.listLeft - 1 }
        if acc.length ≠ 2 then ({ c with acc := acc }, taken)
        else
          let c := { c with acc := [] }
          if c.listLeft < rd16 acc then ({ c with state := .failed }, taken)
          else if rd16 acc = 0 then (Cert13Scan.entryDone { c with extensionsLeft := 0 }, taken)
          else ({ c with extensionsLeft := rd16 acc, state := .extBody }, taken)
    | .extBody =>
      let taken := [(c.listLeft, 1), (c.extensionsLeft, 1)]
      let c := { c with listLeft := c.listLeft - 1, extensionsLeft := c.extensionsLeft - 1 }
      if c.extensionsLeft = 0 then (c.entryDone, taken) else (c, taken)
    | .done | .failed => ({ c with state := .failed }, [])

def Cert13Scan.byte (c : Cert13Scan) (b : UInt8) : Cert13Scan :=
  (c.read b).1

/-- `qn_cert13_scan_push`. -/
def cert13ScanPush : Cert13Scan → Bytes → Cert13Scan × Bool :=
  Scanner.push Cert13Scan.bad Cert13Scan.byte

def Cert13Scan.isDone (c : Cert13Scan) : Bool :=
  c.state = .done ∧ c.seen = c.total ∧ 0 < c.count

end Qanat
