import Qanat.Cidr
import Qanat.HttpProbe
import Qanat.General.Decimal

namespace Qanat

def q10 : Nat := 1024

def storeHalflifeSec : Nat := 3 * 86400

def storeSchema : Nat := 2

structure StoreEntry where
  addr : Addr
  lastSeen : Nat
  runs : Nat
  score : Nat
  weight : Nat
  operMask : Nat
  handshakeUs : Nat
  deriving DecidableEq

structure Store where
  e : List StoreEntry
  cap : Nat

/-- The halving loop of `decay_q10`; ten rounds bring `Q10` down to one. -/
def decayLoop : Nat → Nat → Nat → Nat × Nat
  | 0, q, dt => (q, dt)
  | n + 1, q, dt => if storeHalflifeSec ≤ dt ∧ 1 < q then decayLoop n (q >>> 1) (dt - storeHalflifeSec) else (q, dt)

def decayQ10 (dt : Nat) : Nat :=
  let (q, rest) := decayLoop 10 q10 dt
  if 1 < q then q - q / 2 * rest / storeHalflifeSec else q

/-- The FNV hash of a path tag picks a bit. -/
def operBit (oper : Bytes) : Nat :=
  1 <<< ((oper.foldl (fun h c => (h ^^^ c.toUInt32) * 16777619) (2166136261 : UInt32)) &&& 31).toNat

def storeInit (cap : Nat) : Store :=
  ⟨[], cap⟩

def StoreEntry.fresh (a : Addr) : StoreEntry :=
  ⟨a, 0, 0, 0, 0, 0, 0⟩

/-- The decay of an entry as of `now`. -/
def StoreEntry.decay (e : StoreEntry) (now : Nat) : Nat :=
  if e.lastSeen ≠ 0 ∧ e.lastSeen < now then decayQ10 (now - e.lastSeen) else q10

def standing (e : StoreEntry) (now : Nat) : Nat :=
  let d := e.decay now
  let w := e.weight * d / q10
  let v := e.score * d / q10
  v * q10 / (w + 1) * (w + 1)

/-- The place of the first entry of an address, or the length. -/
def entryIdx (a : Addr) (l : List StoreEntry) : Nat :=
  l.findIdx fun e => e.addr = a

/-- The entry that eviction takes: the first of the lowest standing. -/
def worstIdx (l : List StoreEntry) (now : Nat) : Nat :=
  (List.range l.length).foldl (fun worst i =>
    match l[i]?, l[worst]? with
    | some x, some y => if standing x now < standing y now then i else worst
    | _, _ => worst) 0

/-- `slot_for`: the entries with a slot for `a`, and its place. -/
def slotFor (s : Store) (a : Addr) (now : Nat) : List StoreEntry × Nat :=
  if entryIdx a s.e < s.e.length then (s.e, entryIdx a s.e)
  else if s.e.length < s.cap then (s.e ++ [StoreEntry.fresh a], s.e.length)
  else (s.e.set (worstIdx s.e now) (.fresh a), worstIdx s.e now)

/-- The update of an entry in `qn_store_observe`; `cast` is the conversion to 32 bits. -/
def observeEntry (cast : Nat → Nat) (oper : Bytes) (good : Bool) (handshakeUs now : Nat) (e : StoreEntry) : StoreEntry :=
  let eventNow := if e.lastSeen ≠ 0 ∧ now < e.lastSeen then e.lastSeen else now
  let d := e.decay eventNow
  let score := e.score * d / q10
  let weight := e.weight * d / q10
  let full := 2 ^ 32 - 1 - q10 < score ∨ 2 ^ 32 - 1 - q10 < weight
  let score := if full then (score + 1) / 2 else score
  let weight := if full then (weight + 1) / 2 else weight
  { e with
    score := cast (if good then score + q10 else score)
    weight := cast (weight + q10)
    lastSeen := eventNow
    runs := if e.runs ≠ 2 ^ 32 - 1 then cast (e.runs + 1) else e.runs
    operMask := if good then e.operMask ||| operBit oper else e.operMask
    handshakeUs :=
      if good then
        if e.handshakeUs ≠ 0 then cast ((e.handshakeUs + handshakeUs) / 2) else handshakeUs
      else e.handshakeUs }

def observeAs (cast : Nat → Nat) (s : Store) (a : Addr) (oper : Bytes) (good : Bool) (handshakeUs now : Nat) : Store :=
  if s.cap = 0 then s
  else
    let (l, i) := slotFor s a now
    { s with e := l.modify i (observeEntry cast oper good handshakeUs now) }

/-- `qn_store_observe`. -/
def storeObserve : Store → Addr → Bytes → Bool → Nat → Nat → Store :=
  observeAs (· % 2 ^ 32)

section Text

/-- The text forms of addresses in the C library. -/
structure InetText where
  pton4 : Bytes → Option UInt32
  pton6 : Bytes → Option (Vector UInt8 16)
  ntop6 : Vector UInt8 16 → Bytes

variable (inet : InetText)

def storeAddrParse (text : Bytes) : Option Addr :=
  if text = [] then none
  else
    match inet.pton4 text with
    | some a => some (.v4 a)
    | none => (inet.pton6 text).map .v6

def chDot : UInt8 := 46

def chSlash : UInt8 := 47

def digitChar (v : Nat) : UInt8 :=
  UInt8.ofNat (48 + v)

/-- The digits of an octet in `qn_ipv4_str`. -/
def octetStr (v : Nat) : Bytes :=
  if 100 ≤ v then [digitChar (v / 100), digitChar (v % 100 / 10), digitChar (v % 100 % 10)]
  else if 10 ≤ v then [digitChar (v / 10), digitChar (v % 10)]
  else [digitChar v]

/-- `qn_ipv4_str`. -/
def ipv4Str (a : UInt32) : Bytes :=
  octetStr (a >>> 24 &&& 0xFF).toNat ++ chDot :: octetStr (a >>> 16 &&& 0xFF).toNat ++
    chDot :: octetStr (a >>> 8 &&& 0xFF).toNat ++ chDot :: octetStr (a &&& 0xFF).toNat

def addrStr : Addr → Bytes
  | .v4 a => ipv4Str a
  | .v6 b => inet.ntop6 b

/-- `parse_u64`. -/
def parseU64 (text : Bytes) (max : Nat) : Option Nat :=
  (Decimal.read text).filter (· ≤ max)

def isFieldSep (c : UInt8) : Bool :=
  c == chSp || c == chTab || c == chCr || c == chLf

/-- `split_fields`: the words of a line. -/
def splitFields : Bytes → List Bytes
  | [] => []
  | c :: t =>
    if isFieldSep c then splitFields t
    else if t.head?.all isFieldSep then [c] :: splitFields t
    else match splitFields t with
      | [] => [[c]]
      | f :: fs => (c :: f) :: fs

def schemaTag : Bytes := ascii "# qanat history v".toList

/-- The digits of a version, refused before they can overflow. -/
def schemaDigits (v : Nat) : Bytes → Option Nat
  | [] => some v
  | c :: t =>
    if isDigit c then if (2 ^ 32 - 1 - 9) / 10 < v then none else schemaDigits (v * 10 + (c.toNat - 48)) t
    else some v

def readSchema (line : Bytes) : Option Nat :=
  if schemaTag.isPrefixOf line then
    match line.drop schemaTag.length with
    | c :: t => if isDigit c then schemaDigits 0 (c :: t) else none
    | [] => none
  else none

/-- `fgets` into 256 bytes: the line, what is left, and whether the end of the file was met. -/
def fgets (content : Bytes) : Bytes × Bytes × Bool :=
  if chLf ∈ content.take 255 then
    (content.takeWhile (· ≠ chLf) ++ [chLf], (content.dropWhile (· ≠ chLf)).tail, false)
  else (content.take 255, content.drop 255, content.length < 255)

structure StoreScan where
  loaded : List StoreEntry
  seenSchema : Bool

/-- A line of seven fields. -/
def storeFields (cap : Nat) (st : StoreScan) : List Bytes → Option StoreScan
  | [f₀, f₁, f₂, f₃, f₄, f₅, f₆] => do
    let a ← storeAddrParse inet f₀
    let lastSeen ← parseU64 f₁ (2 ^ 64 - 1)
    let runs ← parseU64 f₂ (2 ^ 32 - 1)
    let score ← parseU64 f₃ (2 ^ 32 - 1)
    let weight ← parseU64 f₄ (2 ^ 32 - 1)
    let operMask ← parseU64 f₅ (2 ^ 32 - 1)
    let handshakeUs ← parseU64 f₆ (2 ^ 32 - 1)
    if cap ≤ st.loaded.length ∨ weight < score ∨ (runs = 0 ↔ weight ≠ 0) ∨ a ∈ st.loaded.map StoreEntry.addr then none
    else some { st with loaded := st.loaded ++ [⟨a, lastSeen, runs, score, weight, operMask, handshakeUs⟩] }
  | _ => none

def storeLine (cap : Nat) (st : StoreScan) (line : Bytes) (eof : Bool) : Option StoreScan :=
  let text := line.takeWhile (· ≠ 0)
  if chLf ∉ text ∧ !eof then none
  else
    match if st.seenSchema then none else readSchema text with
    | some v => if v < 1 ∨ storeSchema < v then none else some { st with seenSchema := true }
    | none =>
      match skipBlanks text with
      | [] => some st
      | c :: t =>
        if c = chCr ∨ c = chLf ∨ c = 0x23 then some st
        else if !st.seenSchema then none
        else storeFields inet cap st (splitFields (c :: t))

/-- The reading loop of `load_into`; every round takes at least a byte. -/
def storeLoop (cap : Nat) : Nat → Bytes → StoreScan → Option StoreScan
  | 0, _, st => some st
  | _ + 1, [], st => some st
  | n + 1, c :: t, st =>
    match fgets (c :: t) with
    | (line, rest, eof) => (storeLine inet cap st line eof).bind (storeLoop cap n rest)

/-- `load_into` on the text of a file. -/
def storeParse (cap : Nat) (content : Bytes) : Option (List StoreEntry) :=
  (storeLoop inet cap content.length content ⟨[], false⟩).map StoreScan.loaded

/-- `load_into` on a file that may be absent. -/
def loadInto (cap : Nat) : Option Bytes → Option (List StoreEntry)
  | none => some []
  | some content => storeParse inet cap content

/-- `qn_store_load`. -/
def storeLoad (s : Store) (file : Option Bytes) : Store × Bool :=
  if s.cap = 0 then (s, false)
  else
    match loadInto inet s.cap file with
    | some loaded => ({ s with e := loaded }, true)
    | none => (s, false)

end Text

section Merge

/-- Whether the entry on disk takes the place of the one in memory. -/
def fresher (d m : StoreEntry) : Bool :=
  m.lastSeen < d.lastSeen || d.lastSeen = m.lastSeen && m.weight < d.weight

def mergeEntry (d m : StoreEntry) : StoreEntry :=
  let mask := m.operMask ||| d.operMask
  let runs := if m.runs < d.runs then d.runs else m.runs
  if fresher d m then { d with operMask := mask, runs := runs } else { m with operMask := mask, runs := runs }

def mergeOne (cap : Nat) (out : List StoreEntry) (d : StoreEntry) : List StoreEntry :=
  if entryIdx d.addr out = out.length then if out.length < cap then out ++ [d] else out
  else out.modify (entryIdx d.addr out) (mergeEntry d)

variable (inet : InetText)

/-- `merge_disk`. -/
def mergeDisk (cap : Nat) (s : Store) (file : Option Bytes) : List StoreEntry :=
  match loadInto inet cap file with
  | some disk => disk.foldl (mergeOne cap) (s.e.take cap)
  | none => s.e.take cap

def storeHeader : Bytes :=
  schemaTag ++ Decimal.render storeSchema ++ ascii ": address last_seen runs score weight paths handshake_us\n".toList

/-- `%s %llu %u %u %u %u %u`. -/
def entryLine (e : StoreEntry) : Bytes :=
  addrStr inet e.addr ++ chSp :: Decimal.render e.lastSeen ++ chSp :: Decimal.render e.runs ++
    chSp :: Decimal.render e.score ++ chSp :: Decimal.render e.weight ++ chSp :: Decimal.render e.operMask ++
    chSp :: Decimal.render e.handshakeUs ++ [chLf]

def storeText (l : List StoreEntry) : Bytes :=
  storeHeader ++ l.flatMap (entryLine inet)

/-- `qn_store_save` against what is on disk: the text that takes its place. -/
def storeSave (s : Store) (file : Option Bytes) : Bytes :=
  storeText inet (mergeDisk inet s.cap s file)

end Merge

end Qanat
