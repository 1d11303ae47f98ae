import Qanat.HttpProbe
import Qanat.General.Decimal

namespace Qanat

/-- `qn_color_depth`. -/
inductive ColorDepth
  | none | color16 | color256 | true
  deriving DecidableEq

def attrBold : UInt16 := 1
def attrDim : UInt16 := 2
def attrReverse : UInt16 := 4
def attrUnder : UInt16 := 8
def attrItalic : UInt16 := 16

/-- `QN_COL_DEFAULT`. -/
def colDefault : UInt32 := 0xFF000000

/-- `qn_cell`. -/
structure ScreenCell where
  ch : UInt32
  fg : UInt32
  bg : UInt32
  attr : UInt16
  deriving DecidableEq

/-- The fields `cur_fg` to `cur_y` of `qn_screen`: the style and the position that the terminal should have. -/
structure ScreenCur where
  fg : UInt32
  bg : UInt32
  attr : UInt16
  x : Int
  y : Int
  deriving DecidableEq

/-- `qn_screen`; the cell of column `x` and row `y` has the index `y * w + x`. -/
structure Screen where
  front : Nat → ScreenCell
  back : Nat → ScreenCell
  w : Nat
  h : Nat
  cur : ScreenCur

section Output

variable (depth : ColorDepth) (utf8 : Bool)

/-- The digits that `ob_uint` collects, behind those of the rest. -/
def obDigits : Nat → Nat → Bytes
  | 0, _ => []
  | fuel + 1, v => if v = 0 then [] else obDigits fuel (v / 10) ++ [UInt8.ofNat (48 + v % 10)]

/-- `ob_uint`; a number of 32 bits has ten digits at most. -/
def obUint (v : UInt32) : Bytes :=
  if v = 0 then [48] else obDigits 10 v.toNat

/-- A conversion to `char`. -/
def lowByte (v : UInt32) : UInt8 :=
  v.toUInt8

/-- `ob_utf8`. -/
def obUtf8 (cp : UInt32) : Bytes :=
  if cp < 0x80 then [lowByte cp]
  else if !utf8 then [0x3F]
  else if cp < 0x800 then [lowByte ((0xC0 : UInt32) ||| (cp >>> 6)), lowByte ((0x80 : UInt32) ||| (cp &&& 0x3F))]
  else if cp < 0x10000 then
    [lowByte ((0xE0 : UInt32) ||| (cp >>> 12)), lowByte ((0x80 : UInt32) ||| ((cp >>> 6) &&& 0x3F)),
      lowByte ((0x80 : UInt32) ||| (cp &&& 0x3F))]
  else
    [lowByte ((0xF0 : UInt32) ||| (cp >>> 18)), lowByte ((0x80 : UInt32) ||| ((cp >>> 12) &&& 0x3F)),
      lowByte ((0x80 : UInt32) ||| ((cp >>> 6) &&& 0x3F)), lowByte ((0x80 : UInt32) ||| (cp &&& 0x3F))]

/-- `rgb_to_256`; what it returns is a byte. -/
def rgbTo256 (c : UInt32) : UInt32 :=
  let r := (c >>> 16) &&& 0xFF
  let g := (c >>> 8) &&& 0xFF
  let b := c &&& 0xFF
  if r = g ∧ g = b then
    if r < 8 then 16 else if 248 < r then 231 else (232 + (r - 8) * 24 / 240) % 256
  else (16 + 36 * (r * 5 / 255) + 6 * (g * 5 / 255) + b * 5 / 255) % 256

def chSemi : UInt8 := 0x3B
def chM : UInt8 := 0x6D
def chH : UInt8 := 0x48

/-- A control sequence introducer and a text. -/
def escText (text : Bytes) : Bytes :=
  0x1B :: 0x5B :: text

/-- `emit_color`. -/
def emitColor (c : UInt32) (fg : Bool) : Bytes :=
  if depth = .none then []
  else if c = colDefault then escText (if fg then [0x33, 0x39, 0x6D] else [0x34, 0x39, 0x6D])
  else if depth = .true then
    escText (if fg then [0x33, 0x38, 0x3B, 0x32, 0x3B] else [0x34, 0x38, 0x3B, 0x32, 0x3B]) ++
      obUint ((c >>> 16) &&& 0xFF) ++ [chSemi] ++ obUint ((c >>> 8) &&& 0xFF) ++ [chSemi] ++ obUint (c &&& 0xFF) ++
      [chM]
  else
    escText (if fg then [0x33, 0x38, 0x3B, 0x35, 0x3B] else [0x34, 0x38, 0x3B, 0x35, 0x3B]) ++
      obUint (rgbTo256 c) ++ [chM]

/-- `"\033[0m"`. -/
def sgrReset : Bytes := escText [0x30, 0x6D]

/-- What `apply_style` writes for the attributes of a cell. -/
def attrBytes (attr : UInt16) : Bytes :=
  (if attr &&& attrBold ≠ 0 then escText [0x31, 0x6D] else []) ++
    (if attr &&& attrDim ≠ 0 then escText [0x32, 0x6D] else []) ++
    (if attr &&& attrItalic ≠ 0 then escText [0x33, 0x6D] else []) ++
    (if attr &&& attrUnder ≠ 0 then escText [0x34, 0x6D] else []) ++
    (if attr &&& attrReverse ≠ 0 then escText [0x37, 0x6D] else [])

/-- The attributes in `apply_style`: what is written, and the style that is left behind. -/
def styleAttr (c : ScreenCell) (cur : ScreenCur) : Bytes × ScreenCur :=
  if c.attr ≠ cur.attr then
    (sgrReset ++ attrBytes c.attr, { cur with fg := colDefault, bg := colDefault, attr := c.attr })
  else ([], cur)

def styleFg (c : ScreenCell) (cur : ScreenCur) : Bytes × ScreenCur :=
  if c.fg ≠ cur.fg then (emitColor depth c.fg true, { cur with fg := c.fg }) else ([], cur)

def styleBg (c : ScreenCell) (cur : ScreenCur) : Bytes × ScreenCur :=
  if c.bg ≠ cur.bg then (emitColor depth c.bg false, { cur with bg := c.bg }) else ([], cur)

/-- `apply_style`. -/
def applyStyle (c : ScreenCell) (cur : ScreenCur) : Bytes × ScreenCur :=
  let a := styleAttr c cur
  let f := styleFg depth c a.2
  let b := styleBg depth c f.2
  (a.1 ++ f.1 ++ b.1, b.2)

/-- `move_to`. -/
def moveTo (x y : Nat) (cur : ScreenCur) : Bytes × ScreenCur :=
  if cur.y = y ∧ cur.x = x then ([], cur)
  else
    (escText (obUint (UInt32.ofNat (y + 1))) ++ [chSemi] ++ obUint (UInt32.ofNat (x + 1)) ++ [chH],
      { cur with x := x, y := y })

/-- The body of the loop of `qn_screen_flush` for a changed cell. -/
def drawCell (w x y : Nat) (c : ScreenCell) (cur : ScreenCur) : Bytes × ScreenCur :=
  let (move, cur) := moveTo x y cur
  let (style, cur) := applyStyle depth c cur
  (move ++ style ++ obUtf8 utf8 (if c.ch ≠ 0 then c.ch else 0x20), { cur with x := if x + 1 < w then x + 1 else -1 })

/-- The positions of a screen, row by row. -/
def positions (w h : Nat) : List (Nat × Nat) :=
  (List.range h).flatMap fun y => (List.range w).map fun x => (x, y)

/-- A turn of the loop of `qn_screen_flush`. -/
def flushCell (s : Screen) (out : Bytes × ScreenCur) (p : Nat × Nat) : Bytes × ScreenCur :=
  let i := p.2 * s.w + p.1
  if s.back i = s.front i then out
  else
    let (bytes, cur) := drawCell depth utf8 s.w p.1 p.2 (s.back i) out.2
    (out.1 ++ bytes, cur)

/-- What the loop of `qn_screen_flush` builds. -/
def flushLoop (s : Screen) : Bytes × ScreenCur :=
  (positions s.w s.h).foldl (flushCell depth utf8 s) ([], s.cur)

/-- All that a flush writes. -/
def flushBytes (s : Screen) : Bytes :=
  let out := flushLoop depth utf8 s
  if out.1 = [] then [] else out.1 ++ sgrReset

def plainCur (cur : ScreenCur) : ScreenCur :=
  { cur with fg := colDefault, bg := colDefault, attr := 0 }

/-- The screen after a flush whose bytes are all written. -/
def flushDone (s : Screen) : Screen :=
  let out := flushLoop depth utf8 s
  if out.1 = [] then s else { s with front := s.back, cur := plainCur out.2 }

/-- The screen after a flush whose bytes are not all written. -/
def flushFailed (s : Screen) : Screen :=
  let out := flushLoop depth utf8 s
  { s with front := fun i => { s.front i with ch := 0xFFFFFFFF }, cur := { plainCur out.2 with x := -1, y := -1 } }

end Output

section Drawing

/-- `qn_screen_resize`, and `qn_screen_init`; a screen without cells is refused. -/
def screenResize (w h : UInt16) : Option Screen :=
  if w.toNat * h.toNat = 0 then none
  else
    some {
      front := fun _ => ⟨0xFFFFFFFF, 0, 0, 0⟩
      back := fun _ => ⟨0, 0, 0, 0⟩
      w := w.toNat
      h := h.toNat
      cur := ⟨colDefault, colDefault, 0xFFFF, -1, -1⟩ }

/-- `qn_screen_clear`. -/
def screenClear (bg : UInt32) (s : Screen) : Screen :=
  { s with back := fun i => if i < s.w * s.h then ⟨0x20, colDefault, bg, 0⟩ else s.back i }

/-- `safe_cell`. -/
def safeCell (cp : UInt32) : UInt32 :=
  if cp < 0x20 ∨ cp = 0x7F ∨ (0x80 ≤ cp ∧ cp ≤ 0x9F) then 0xB7
  else if (0xD800 ≤ cp ∧ cp ≤ 0xDFFF) ∨ 0x10FFFF < cp then 0xB7
  else cp

/-- `qn_put`. -/
def screenPut (x y : Int) (ch fg bg : UInt32) (attr : UInt16) (s : Screen) : Screen :=
  if x < 0 ∨ y < 0 ∨ s.w ≤ x ∨ s.h ≤ y then s
  else
    let i := y.toNat * s.w + x.toNat
    { s with back := fun j => if j = i then ⟨safeCell ch, fg, bg, attr⟩ else s.back j }

/-- The sequences of two bytes in `utf8_next` of `screen.c`; the outer `none` is a read past the end. -/
def screenSeq2 (c : UInt8) (t : Bytes) : Option (Option (Nat × Nat)) :=
  if 0xC2 ≤ c ∧ c ≤ 0xDF then
    match t with
    | [] => none
    | p :: _ =>
      if p &&& 0xC0 = 0x80 then some (some ((c &&& 0x1F).toNat <<< 6 ||| (p &&& 0x3F).toNat, 2)) else some none
  else some none

def screenSeq3 (c : UInt8) (t : Bytes) : Option (Option (Nat × Nat)) :=
  if 0xE0 ≤ c ∧ c ≤ 0xEF then
    match t with
    | [] => none
    | p :: t =>
      if p &&& 0xC0 = 0x80 then
        match t with
        | [] => none
        | q :: _ =>
          if q &&& 0xC0 = 0x80 then
            let v := (c &&& 0x0F).toNat <<< 12 ||| (p &&& 0x3F).toNat <<< 6 ||| (q &&& 0x3F).toNat
            some (if 0x800 ≤ v ∧ (v < 0xD800 ∨ 0xDFFF < v) then some (v, 3) else none)
          else some none
      else some none
  else some none

def screenSeq4 (c : UInt8) (t : Bytes) : Option (Option (Nat × Nat)) :=
  if 0xF0 ≤ c ∧ c ≤ 0xF4 then
    match t with
    | [] => none
    | p :: t =>
      if p &&& 0xC0 = 0x80 then
        match t with
        | [] => none
        | q :: t =>
          if q &&& 0xC0 = 0x80 then
            match t with
            | [] => none
            | r :: _ =>
              if r &&& 0xC0 = 0x80 then
                let v := (c &&& 0x07).toNat <<< 18 ||| (p &&& 0x3F).toNat <<< 12 ||| (q &&& 0x3F).toNat <<< 6 |||
                  (r &&& 0x3F).toNat
                some (if 0x10000 ≤ v ∧ v ≤ 0x10FFFF then some (v, 4) else none)
              else some none
          else some none
      else some none
  else some none

/-- `utf8_next` of `screen.c`: the character and how far the text moves on. -/
def screenUtf8Next : Bytes → Option (Nat × Nat)
  | [] => none
  | c :: t =>
    if c < 0x80 then some (c.toNat, 1)
    else
      match screenSeq2 c t with
      | none => none
      | some (some r) => some r
      | some none =>
        match screenSeq3 c t with
        | none => none
        | some (some r) => some r
        | some none =>
          match screenSeq4 c t with
          | none => none
          | some (some r) => some r
          | some none => some (0xB7, 1)

/-- The loop of `qn_textn` over the memory of a string, `skip` bytes before the next character. -/
def textLoop (x y maxw : Int) (fg bg : UInt32) (attr : UInt16) : Nat → Int → Bytes → Screen → Screen
  | _, _, [], s => s
  | skip + 1, n, _ :: t, s => textLoop x y maxw fg bg attr skip n t s
  | 0, n, c :: t, s =>
    if c ≠ 0 ∧ n < maxw ∧ x + n < s.w then
      match screenUtf8Next (c :: t) with
      | none => s
      | some (cp, len) =>
        textLoop x y maxw fg bg attr (len - 1) (n + 1) t (screenPut (x + n) y (UInt32.ofNat cp) fg bg attr s)
    else s

/-- `qn_textn`. -/
def screenTextn (x y : Int) (str : Bytes) (maxw : Int) (fg bg : UInt32) (attr : UInt16) (s : Screen) : Screen :=
  if y < 0 ∨ s.h ≤ y then s else textLoop x y maxw fg bg attr 0 0 (str ++ [0]) s

/-- `qn_text`. -/
def screenText (x y : Int) (str : Bytes) (fg bg : UInt32) (attr : UInt16) (s : Screen) : Screen :=
  screenTextn x y str s.w fg bg attr s

/-- `qn_fill`. -/
def screenFill (x y w h : Int) (ch fg bg : UInt32) (attr : UInt16) (s : Screen) : Screen :=
  (positions w.toNat h.toNat).foldl (fun s p => screenPut (x + p.1) (y + p.2) ch fg bg attr s) s

/-- `qn_hline`. -/
def screenHline (x y w : Int) (ch fg bg : UInt32) (s : Screen) : Screen :=
  (List.range w.toNat).foldl (fun s i => screenPut (x + i) y ch fg bg 0 s) s

/-- The drawing operations; the others are made of these. -/
inductive DrawOp
  | put (x y : Int) (ch fg bg : UInt32) (attr : UInt16)
  | textn (x y : Int) (str : Bytes) (maxw : Int) (fg bg : UInt32) (attr : UInt16)
  | text (x y : Int) (str : Bytes) (fg bg : UInt32) (attr : UInt16)
  | fill (x y w h : Int) (ch fg bg : UInt32) (attr : UInt16)
  | hline (x y w : Int) (ch fg bg : UInt32)
  | clear (bg : UInt32)

def DrawOp.draw : DrawOp → Screen → Screen
  | put x y ch fg bg attr => screenPut x y ch fg bg attr
  | textn x y str maxw fg bg attr => screenTextn x y str maxw fg bg attr
  | text x y str fg bg attr => screenText x y str fg bg attr
  | fill x y w h ch fg bg attr => screenFill x y w h ch fg bg attr
  | hline x y w ch fg bg => screenHline x y w ch fg bg
  | clear bg => screenClear bg

/-- The attributes that an operation draws with. -/
def DrawOp.attr : DrawOp → UInt16
  | put _ _ _ _ _ attr => attr
  | textn _ _ _ _ _ _ attr => attr
  | text _ _ _ _ _ attr => attr
  | fill _ _ _ _ _ _ _ attr => attr
  | hline _ _ _ _ _ _ => 0
  | clear _ => 0

end Drawing

end Qanat
