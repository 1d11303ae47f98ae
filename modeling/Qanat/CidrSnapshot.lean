import Qanat.CidrParse
import Qanat.General.Lines

namespace Qanat

/-- The values of `AF_INET` and `AF_INET6`. -/
def Addr.af : Addr → Int
  | .v4 _ => 2
  | .v6 _ => 10

def cidrFileMax : Nat := 4 <<< 20

def scratchCap : Nat := 160

def badTextSize : Nat := 80

/-- `qn_cidr_report`, without the digest and what the file system says. -/
structure CidrReport where
  accepted : Nat
  rejected : Nat
  overflow : Nat
  badLine : Nat
  badText : Bytes
  deriving DecidableEq

/-- `snap_line`; its text is the scratch buffer or nothing. -/
structure SnapLine where
  text : Bool
  len : Nat
  overlong : Bool
  hasNul : Bool

/-- What stands in a line: its bytes up to the line feed, less one carriage return in front of it. -/
def lineBody (line : Bytes) : Bytes :=
  let body := line.takeWhile (· ≠ chLf)
  if body.getLast? = some chCr then body.dropLast else body

/-- `snap_next` on the bytes from `pos` on: the line, the bytes behind it and the scratch buffer. -/
def snapNext (cap : Nat) (rest scratch : Bytes) : SnapLine × Bytes × Bytes :=
  let take := lineBody rest
  let after := (rest.dropWhile (· ≠ chLf)).tail
  let hasNul := decide (0 ∈ take)
  if cap ≤ take.length then (⟨false, 0, true, hasNul⟩, after, scratch)
  else (⟨true, take.length, false, hasNul⟩, after, take ++ 0 :: scratch.drop (take.length + 1))

def isTrailing (c : UInt8) : Bool :=
  c == chLf || c == chCr || isBlank c

/-- The bytes that make `range_line` pass over a line they open. -/
def skipsLine (c : UInt8) : Bool :=
  c == 0x23 || c == 0x3B || c == chLf || c == chCr

/-- `range_line`: the string it returns, and the buffer, whose trailing bytes it has cleared. -/
def rangeLine (line : Bytes) : Option Bytes × Bytes :=
  let s := cString line
  match s.dropWhile isBlank with
  | [] => (none, line)
  | c :: t =>
    if skipsLine c then (none, line)
    else
      let kept := (c :: t).rdropWhile isTrailing
      let e := s.length - (c :: t).length + kept.length
      (if kept = [] then none else some kept,
        line.take e ++ List.replicate (s.length - e) 0 ++ line.drop s.length)

/-- The counting pass of `qn_cidr_set_load_snapshot`: the lines worth parsing, and the scratch buffer. -/
def countPass : Nat → Bytes → Bytes → Nat → Nat × Bytes
  | 0, _, scratch, want => (want, scratch)
  | fuel + 1, rest, scratch, want =>
    if rest = [] then (want, scratch)
    else
      let (ln, rest, scratch) := snapNext scratchCap rest scratch
      if ln.overlong ∨ ln.hasNul ∨ !ln.text then countPass fuel rest scratch want
      else
        let (t, scratch) := rangeLine scratch
        countPass fuel rest scratch (if t.isSome then (want + 1) % 2 ^ 32 else want)

structure SnapState where
  set : CidrSet
  rep : CidrReport
  lineno : Nat

def CidrReport.noteBad (rep : CidrReport) (lineno : Nat) (text : Bytes) : CidrReport :=
  if rep.badLine = 0 then { rep with badLine := lineno, badText := text.take (badTextSize - 1) } else rep

def SnapState.reject (st : SnapState) (text : Bytes) : SnapState :=
  { st with rep := { st.rep with rejected := (st.rep.rejected + 1) % 2 ^ 32 }.noteBad st.lineno text }

def embeddedNul : Bytes := ascii "embedded-nul".toList

def lineTooLong : Bytes := ascii "line-too-long".toList

/-- The end of the parsing pass's body, on a line worth parsing. -/
def parseLine (inet : InetText) (requiredAf : Int) (st : SnapState) (t : Bytes) : SnapState :=
  match cidrParse inet t with
  | none => st.reject t
  | some p =>
    if requiredAf ≠ 0 ∧ p.net.af ≠ requiredAf then st.reject t
    else
      match cidrSetAdd st.set p with
      | none => { st with rep := { st.rep with overflow := (st.rep.overflow + 1) % 2 ^ 32 }.noteBad st.lineno t }
      | some set => { st with set := set, rep := { st.rep with accepted := (st.rep.accepted + 1) % 2 ^ 32 } }

/-- The parsing pass of `qn_cidr_set_load_snapshot`. -/
def parsePass (inet : InetText) (requiredAf : Int) : Nat → Bytes → Bytes → SnapState → SnapState
  | 0, _, _, st => st
  | fuel + 1, rest, scratch, st =>
    if rest = [] then st
    else
      let st := { st with lineno := (st.lineno + 1) % 2 ^ 32 }
      let (ln, rest, scratch) := snapNext scratchCap rest scratch
      if ln.overlong ∨ ln.hasNul ∨ !ln.text then
        parsePass inet requiredAf fuel rest scratch (st.reject (if ln.hasNul then embeddedNul else lineTooLong))
      else
        let (t, scratch) := rangeLine scratch
        match t with
        | none => parsePass inet requiredAf fuel rest scratch st
        | some t => parsePass inet requiredAf fuel rest scratch (parseLine inet requiredAf st t)

structure RangeSnapshot where
  ok : Bool
  set : CidrSet
  rep : CidrReport

def fileTooLarge : Bytes := ascii "file-too-large".toList

/-- `qn_cidr_set_load_snapshot` on a file that is read whole and does not change, with memory to spare. Each turn of a
pass takes a byte of the file at least, so there are never more turns than bytes. -/
def cidrSetLoadSnapshot (inet : InetText) (s : CidrSet) (scratch buf : Bytes) (requiredAf : Int) : RangeSnapshot :=
  if cidrFileMax < buf.length then ⟨false, s, ⟨0, 1, 0, 1, fileTooLarge⟩⟩
  else
    let (want, scratch) := countPass buf.length buf scratch 0
    let set := cidrSetInit (if want ≠ 0 then want else 1) false
    let st := parsePass inet requiredAf buf.length buf scratch ⟨set, ⟨0, 0, 0, 0, []⟩, 0⟩
    ⟨st.rep.accepted ≠ 0 && st.rep.rejected == 0 && st.rep.overflow == 0, st.set, st.rep⟩

end Qanat
