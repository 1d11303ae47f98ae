import Qanat.General.Decimal
import Qanat.General.Utf8

namespace Terminal

inductive Colour
  | default
  | rgb (r g b : Nat)
  deriving DecidableEq

/-- What `SGR` sets. -/
structure Pen where
  fg : Colour
  bg : Colour
  bold : Bool
  dim : Bool
  italic : Bool
  under : Bool
  reverse : Bool
  deriving DecidableEq

structure Glyph where
  ch : Nat
  pen : Pen
  deriving DecidableEq

/-- Where the terminal is in a control sequence or in a character. -/
inductive Mode
  | ground
  | esc
  | csi (params : List Nat) (last : Nat)
  | utf8 (need value : Nat)
  deriving DecidableEq

/-- A terminal that positions its cursor, follows `SGR` and prints characters of one column, without wrapping. -/
structure Term where
  width : Nat
  height : Nat
  glyph : Nat → Nat → Glyph
  cx : Nat
  cy : Nat
  pen : Pen
  mode : Mode

def Pen.plain : Pen :=
  ⟨.default, .default, false, false, false, false, false⟩

/-- One parameter of `SGR` that stands alone. -/
def sgrOne (p : Pen) (n : Nat) : Pen :=
  if n = 0 then .plain
  else if n = 1 then { p with bold := true }
  else if n = 2 then { p with dim := true }
  else if n = 3 then { p with italic := true }
  else if n = 4 then { p with under := true }
  else if n = 7 then { p with reverse := true }
  else if n = 39 then { p with fg := .default }
  else if n = 49 then { p with bg := .default }
  else p

/-- The parameters of `SGR`, direct colours among them. -/
def sgr (p : Pen) : List Nat → Pen
  | [] => p
  | [n] => sgrOne p n
  | 38 :: 2 :: r :: g :: b :: t => sgr { p with fg := .rgb r g b } t
  | 48 :: 2 :: r :: g :: b :: t => sgr { p with bg := .rgb r g b } t
  | n :: t => sgr (sgrOne p n) t

/-- The glyphs with one of them replaced. -/
def setGlyph (glyph : Nat → Nat → Glyph) (x y : Nat) (g : Glyph) (x' y' : Nat) : Glyph :=
  if x' = x ∧ y' = y then g else glyph x' y'

def Term.print (t : Term) (ch : Nat) : Term :=
  { t with glyph := setGlyph t.glyph t.cx t.cy ⟨ch, t.pen⟩, cx := min (t.cx + 1) (t.width - 1), mode := .ground }

/-- `CUP`: rows and columns count from one. -/
def Term.move (t : Term) (row col : Nat) : Term :=
  { t with cx := min (col - 1) (t.width - 1), cy := min (row - 1) (t.height - 1), mode := .ground }

/-- The end of a control sequence. -/
def Term.final (t : Term) (b : UInt8) (params : List Nat) : Term :=
  if b = 0x48 then
    match params with
    | [row, col] => t.move row col
    | _ => { t with mode := .ground }
  else if b = 0x6D then { t with pen := sgr t.pen params, mode := .ground }
  else { t with mode := .ground }

def Term.byte (t : Term) (b : UInt8) : Term :=
  match t.mode with
  | .ground =>
    if b = 0x1B then { t with mode := .esc }
    else if b < 0x20 ∨ b = 0x7F then t
    else
      match Utf8.lead b with
      | none => t
      | some (0, _, _) => t.print b.toNat
      | some (need, first, _) => { t with mode := .utf8 need first }
  | .esc => { t with mode := if b = 0x5B then .csi [] 0 else .ground }
  | .csi params last =>
    if Decimal.isDigit b then { t with mode := .csi params (10 * last + (b.toNat - 48)) }
    else if b = 0x3B then { t with mode := .csi (params ++ [last]) 0 }
    else t.final b (params ++ [last])
  | .utf8 need value =>
    if Utf8.isTail b then
      let value := value * 64 + b.toNat % 64
      if need ≤ 1 then t.print value else { t with mode := .utf8 (need - 1) value }
    else { t with mode := .ground }

def Term.feed (t : Term) (bytes : List UInt8) : Term :=
  bytes.foldl Term.byte t

section Feed

variable {t : Term}

theorem feed_append (t : Term) (a b : List UInt8) : t.feed (a ++ b) = (t.feed a).feed b :=
  List.foldl_append

theorem feed_cons (t : Term) (b : UInt8) (bs : List UInt8) : t.feed (b :: bs) = (t.byte b).feed bs :=
  rfl

theorem byte_size (t : Term) (b : UInt8) : (t.byte b).width = t.width ∧ (t.byte b).height = t.height := by
  unfold Term.byte
  split
  next => split_ifs <;> [exact ⟨rfl, rfl⟩; exact ⟨rfl, rfl⟩; (split <;> exact ⟨rfl, rfl⟩)]
  next => exact ⟨rfl, rfl⟩
  next =>
    unfold Term.final
    split_ifs <;> [exact ⟨rfl, rfl⟩; exact ⟨rfl, rfl⟩; (split <;> exact ⟨rfl, rfl⟩); exact ⟨rfl, rfl⟩; exact ⟨rfl, rfl⟩]
  next =>
    dsimp only
    split_ifs <;> exact ⟨rfl, rfl⟩

theorem feed_size (t : Term) (bytes : List UInt8) :
    (t.feed bytes).width = t.width ∧ (t.feed bytes).height = t.height := by
  induction bytes generalizing t with
  | nil => exact ⟨rfl, rfl⟩
  | cons b bytes ih =>
    obtain ⟨hw, hh⟩ := ih (t.byte b)
    obtain ⟨hw', hh'⟩ := byte_size t b
    exact ⟨hw.trans hw', hh.trans hh'⟩

theorem feed_digits {params : List Nat} {ds : List UInt8} (hd : ∀ c ∈ ds, Decimal.isDigit c = true) (last : Nat) :
    { t with mode := .csi params last }.feed ds =
      { t with mode := .csi params (ds.foldl (fun v c => 10 * v + (c.toNat - 48)) last) } := by
  induction ds generalizing last with
  | nil => rfl
  | cons c ds ih =>
    have hc : { t with mode := .csi params last }.byte c =
        { t with mode := .csi params (10 * last + (c.toNat - 48)) } :=
      if_pos (hd c List.mem_cons_self)
    rw [feed_cons, hc, ih fun d h => hd d (List.mem_cons_of_mem _ h)]
    rfl

/-- A number behind the introducer or a semicolon becomes the last parameter. -/
theorem feed_render (t : Term) (params : List Nat) (n : Nat) :
    { t with mode := .csi params 0 }.feed (Decimal.render n) = { t with mode := .csi params n } := by
  rw [feed_digits fun c hc => Decimal.isDigit_render hc]
  exact congrArg (fun v => { t with mode := .csi params v }) (Decimal.value_render n)

theorem feed_semicolon (t : Term) (params : List Nat) (n : Nat) (bs : List UInt8) :
    { t with mode := .csi params n }.feed (0x3B :: bs) = { t with mode := .csi (params ++ [n]) 0 }.feed bs :=
  rfl

theorem feed_introducer (h : t.mode = .ground) (bs : List UInt8) :
    t.feed (0x1B :: 0x5B :: bs) = { t with mode := .csi [] 0 }.feed bs := by
  have hesc : t.byte 0x1B = { t with mode := .esc } := by
    rw [Term.byte, h]
    rfl
  rw [feed_cons, hesc]
  rfl

theorem feed_cup (h : t.mode = .ground) (row col : Nat) :
    t.feed (0x1B :: 0x5B :: Decimal.render row ++ 0x3B :: Decimal.render col ++ [0x48]) = t.move row col := by
  rw [List.cons_append, List.cons_append, List.cons_append, List.cons_append, feed_introducer h, feed_append,
    feed_append, feed_render, feed_semicolon, feed_render]
  rfl

theorem feed_sgr (h : t.mode = .ground) (n : Nat) :
    t.feed (0x1B :: 0x5B :: Decimal.render n ++ [0x6D]) = { t with pen := sgrOne t.pen n } := by
  rw [List.cons_append, List.cons_append, feed_introducer h, feed_append, feed_render]
  change { t with pen := sgrOne t.pen n, mode := .ground } = _
  rw [← h]

/-- A direct colour, of the foreground behind 38 and of the background behind 48. -/
theorem feed_direct (h : t.mode = .ground) (n r g b : Nat) :
    t.feed (0x1B :: 0x5B :: Decimal.render n ++ 0x3B :: Decimal.render 2 ++ 0x3B :: Decimal.render r ++
        0x3B :: Decimal.render g ++ 0x3B :: Decimal.render b ++ [0x6D]) =
      { t with pen := sgr t.pen [n, 2, r, g, b] } := by
  simp only [List.cons_append, List.append_assoc]
  rw [feed_introducer h, feed_append, feed_render, feed_semicolon, feed_append, feed_render, feed_semicolon,
    feed_append, feed_render, feed_semicolon, feed_append, feed_render, feed_semicolon, feed_append, feed_render]
  change { t with pen := sgr t.pen [n, 2, r, g, b], mode := .ground } = _
  rw [← h]

theorem feed_tails {need value : Nat} {tails : List UInt8} (hlen : tails.length = need + 1)
    (hall : tails.all Utf8.isTail = true) :
    { t with mode := .utf8 (need + 1) value }.feed tails = t.print (Utf8.valueOf value tails) := by
  induction need generalizing value tails with
  | zero =>
    obtain ⟨b, rfl⟩ := List.length_eq_one_iff.mp hlen
    have hb : Utf8.isTail b = true := by simpa using hall
    exact if_pos hb
  | succ need ih =>
    cases tails with
    | nil => cases hlen
    | cons b tails =>
      rw [List.all_cons, Bool.and_eq_true] at hall
      have hbyte : { t with mode := .utf8 (need + 1 + 1) value }.byte b =
          { t with mode := .utf8 (need + 1) (value * 64 + b.toNat % 64) } :=
        (if_pos hall.1).trans (if_neg (by omega))
      rw [feed_cons, hbyte, ih (Nat.succ.inj hlen) hall.2]
      rfl

/-- A character that is no control character is printed. -/
theorem feed_encode (h : t.mode = .ground) {v : Nat} (hs : Utf8.Scalar v) (hlow : 0x20 ≤ v) (hdel : v ≠ 0x7F) :
    t.feed (Utf8.encode v) = t.print v := by
  by_cases hascii : v < 0x80
  · have hv : (UInt8.ofNat v).toNat = v := by
      rw [UInt8.toNat_ofNat']
      omega
    have hne : ∀ {b : UInt8}, v ≠ b.toNat → UInt8.ofNat v ≠ b := fun hne he => hne (by rw [← he, hv])
    have hctl : ¬(UInt8.ofNat v < 0x20 ∨ UInt8.ofNat v = 0x7F) := by
      rw [UInt8.lt_iff_toNat_lt, hv]
      exact not_or.mpr ⟨Nat.not_lt.mpr hlow, hne hdel⟩
    have hlead : Utf8.lead (UInt8.ofNat v) = some (0, v, 0) := by
      rw [Utf8.lead, if_pos (by rw [UInt8.lt_iff_toNat_lt, hv]; exact hascii), hv]
    have hbyte : t.byte (UInt8.ofNat v) = t.print v := by
      rw [Term.byte, h]
      dsimp only
      rw [if_neg (hne (by change v ≠ 27; omega)), if_neg hctl, hlead]
      exact congrArg t.print hv
    rw [Utf8.encode, if_pos hascii, feed_cons, hbyte]
    rfl
  · obtain ⟨c, need, first, least, tails, he, hl, hlen, hall, hle, hval⟩ := Utf8.encode_eq hs.le
    have hc : ¬c < 0x80 := by
      intro hc
      have hlow : Utf8.lead c = some (0, c.toNat, 0) := if_pos hc
      cases hl.symm.trans hlow
      obtain rfl := List.length_eq_zero_iff.mp hlen
      have hcv : c.toNat = v := hval
      exact hascii (by rw [← hcv]; exact UInt8.lt_iff_toNat_lt.mp hc)
    have hneed : need ≠ 0 := by
      rintro rfl
      unfold Utf8.lead at hl
      rw [if_neg hc] at hl
      split_ifs at hl
      all_goals cases hl
    obtain ⟨need, rfl⟩ := Nat.exists_eq_succ_of_ne_zero hneed
    have hge : 0x80 ≤ c.toNat := Nat.not_lt.mp fun hlt => hc (UInt8.lt_iff_toNat_lt.mpr hlt)
    have hne : ∀ {b : UInt8}, b.toNat < 0x80 → c ≠ b := fun hb he => by
      rw [he] at hge
      omega
    have hctl : ¬(c < 0x20 ∨ c = 0x7F) := by
      rw [UInt8.lt_iff_toNat_lt]
      exact not_or.mpr ⟨Nat.not_lt.mpr ((by decide : (32 : Nat) ≤ 128).trans hge), hne (by decide)⟩
    have hbyte : t.byte c = { t with mode := .utf8 (need + 1) first } := by
      rw [Term.byte, h]
      dsimp only
      rw [if_neg (hne (by decide)), if_neg hctl, hl]
      rfl
    rw [he, feed_cons, hbyte, feed_tails hlen hall, hval]

end Feed

end Terminal
