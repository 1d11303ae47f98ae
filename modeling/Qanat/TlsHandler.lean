import Qanat.TlsSession

namespace Qanat

/-- A session while one record is handled: what was written to `io->out` and `io->app` for this record,
how much of each buffer was free before it, and whether it set the flag `done` of `qn_tls_recv`. -/
structure TlsWork where
  session : TlsSession
  hasOut : Bool
  outRoom : Nat
  out : Bytes
  appRoom : Nat
  app : Bytes
  done : Bool

/-- Code that may change the session, write to the buffers, and return a code other than `ok` at any
point. -/
abbrev TlsHandler := EStateM TlsRc TlsWork

namespace TlsHandler

def session : TlsHandler TlsSession :=
  fun w => .ok w.session w

def hasOut : TlsHandler Bool :=
  fun w => .ok w.hasOut w

def update (f : TlsSession → TlsSession) : TlsHandler Unit :=
  fun w => .ok () { w with session := f w.session }

/-- `if (c) return rc;`. -/
def refuse (c : Prop) [Decidable c] (rc : TlsRc) : TlsHandler Unit :=
  fun w => if c then .error rc w else .ok () w

def orRefuse {α : Type} (x : Option α) (rc : TlsRc) : TlsHandler α :=
  fun w => match x with
    | some a => .ok a w
    | none => .error rc w

def lift {α : Type} (x : Except TlsRc α) : TlsHandler α :=
  fun w => match x with
    | .ok a => .ok a w
    | .error rc => .error rc w

/-- Room for `n` more bytes in `io->out`, or `rc`. -/
def needRoom (n : Nat) (rc : TlsRc) : TlsHandler Unit :=
  fun w => if w.outRoom < w.out.length + n then .error rc w else .ok () w

def emit (p : Bytes) : TlsHandler Unit :=
  fun w => .ok () { w with out := w.out ++ p }

end TlsHandler

/-- `br`: a cursor over a message, with its sticky error. -/
structure Br where
  rest : Bytes
  err : Bool

def Br.init (p : Bytes) : Br :=
  ⟨p, false⟩

def Br.take (r : Br) (n : Nat) : Option Bytes × Br :=
  if r.err ∨ r.rest.length < n then (none, { r with err := true })
  else (some (r.rest.take n), { r with rest := r.rest.drop n })

def Br.u8 (r : Br) : Nat × Br :=
  match r.take 1 with
  | (some p, r) => (byteAt p 0, r)
  | (none, r) => (0, r)

def Br.u16 (r : Br) : Nat × Br :=
  match r.take 2 with
  | (some p, r) => (rd16 p, r)
  | (none, r) => (0, r)

def Br.left (r : Br) : Nat :=
  if r.err then 0 else r.rest.length

/-- `ext_once`. -/
def extOnce (seen : List Nat) (id : Nat) : Option (List Nat) :=
  if id ∈ seen ∨ seen.length = 64 then none else some (seen ++ [id])

/-- The loop over an extension block; what `f` does with one extension is the handler's own. -/
def eachExt {α : Type} (f : α → Nat → Bytes → TlsHandler α) :
    Nat → List Nat → Bytes → α → TlsHandler (α × Bytes)
  | 0, _, r, a => pure (a, r)
  | fuel + 1, seen, r, a =>
    if r.length < 4 then pure (a, r)
    else do
      let ev := (r.drop 4).take (rd16 (r.drop 2))
      TlsHandler.refuse ((r.drop 4).length < rd16 (r.drop 2)) .proto
      let seen ← TlsHandler.orRefuse (extOnce seen (rd16 r)) .proto
      let a ← f a (rd16 r) ev
      eachExt f fuel seen ((r.drop 4).drop (rd16 (r.drop 2))) a

/-- A whole extension block: the loop must end at its last byte. -/
def extBlock {α : Type} (f : α → Nat → Bytes → TlsHandler α) (block : Bytes) (a : α) : TlsHandler α := do
  let x ← eachExt f block.length [] block a
  TlsHandler.refuse (x.2 ≠ []) .proto
  pure x.1

/-- `h2`. -/
def alpnH2 : Bytes := [0x68, 0x32]

/-- `http/1.1`. -/
def alpnHttp11 : Bytes := [0x68, 0x74, 0x74, 0x70, 0x2F, 0x31, 0x2E, 0x31]

/-- `parse_selected_alpn`: the name is stored before it is compared with the two that are offered. -/
def parseSelectedAlpn (p : Bytes) : TlsHandler Unit := do
  TlsHandler.refuse (p.length < 3 ∨ rd16 p ≠ p.length - 2) .proto
  TlsHandler.refuse (byteAt p 2 = 0 ∨ byteAt p 2 ≠ p.length - 3 ∨ 16 ≤ byteAt p 2) .proto
  TlsHandler.update fun s => { s with alpn := p.drop 3 }
  TlsHandler.refuse (cString (p.drop 3) ≠ alpnH2 ∧ cString (p.drop 3) ≠ alpnHttp11) .proto

end Qanat
