import Qanat.Screen
import Qanat.General.Terminal

namespace Qanat

open Terminal

section Numbers

theorem obDigits_eq {fuel v : Nat} (h : v < 10 ^ fuel) (hv : v ≠ 0) : obDigits fuel v = Decimal.render v := by
  have hdigit : ∀ d : Fin 10, UInt8.ofNat (Nat.digitChar d).toNat = UInt8.ofNat (48 + d) := by decide
  have hlast : UInt8.ofNat (Nat.digitChar (v % 10)).toNat = UInt8.ofNat (48 + v % 10) :=
    hdigit ⟨v % 10, Nat.mod_lt _ (by decide)⟩
  induction fuel generalizing v with
  | zero => omega
  | succ fuel ih =>
    rw [obDigits, if_neg hv, Decimal.render]
    by_cases hlow : v < 10
    · have hzero : v / 10 = 0 := by omega
      have hnil : obDigits fuel 0 = [] := by
        cases fuel with
        | zero => rfl
        | succ fuel => exact if_pos rfl
      rw [hzero, hnil, Nat.toDigits_of_lt_base hlow, List.map_singleton, ← hlast, Nat.mod_eq_of_lt hlow]
      rfl
    · have hne : v / 10 ≠ 0 := by omega
      have hrest := hdigit ⟨v / 10 % 10, Nat.mod_lt _ (by decide)⟩
      rw [ih (by rw [Nat.pow_succ] at h; omega) hne hrest, Nat.toDigits_of_base_le (by decide) (by omega), List.map_append,
        List.map_singleton, hlast]
      rfl

/-- `ob_uint` writes the decimal digits of its number. -/
theorem obUint_eq (v : UInt32) : obUint v = Decimal.render v.toNat := by
  unfold obUint
  split
  next h =>
    rw [h]
    rfl
  next h =>
    have hv : v.toNat ≠ 0 := fun h0 => h (UInt32.toNat_inj.mp h0)
    exact obDigits_eq (v.toNat_lt.trans (by decide)) hv

theorem toNat_shift (v : UInt32) {k : UInt32} (hk : k.toNat < 32) : (v >>> k).toNat = v.toNat / 2 ^ k.toNat := by
  rw [UInt32.toNat_shiftRight, Nat.mod_eq_of_lt hk, Nat.shiftRight_eq_div_pow]

theorem toNat_mask (v : UInt32) {m : UInt32} {k : Nat} (hm : m.toNat = 2 ^ k - 1) : (v &&& m).toNat = v.toNat % 2 ^ k := by
  rw [UInt32.toNat_and, hm, Nat.and_two_pow_sub_one_eq_mod]

theorem lowByte_or (k a : Nat) {hi b : UInt32} (hhi : hi.toNat = 2 ^ k * a) (hb : b.toNat < 2 ^ k) :
    lowByte (hi ||| b) = UInt8.ofNat (hi.toNat + b.toNat) := by
  apply UInt8.toNat_inj.mp
  rw [lowByte, UInt32.toNat_toUInt8, UInt32.toNat_or, UInt8.toNat_ofNat', hhi, ← Nat.two_pow_add_eq_or_of_lt hb]

/-- `ob_utf8` is the encoding of RFC 3629. -/
theorem obUtf8_eq {cp : UInt32} (h : cp.toNat ≤ 0x10FFFF) : obUtf8 true cp = Utf8.encode cp.toNat := by
  have hmask : ∀ v : UInt32, (v &&& 0x3F).toNat = v.toNat % 64 := fun v => @toNat_mask v 0x3F 6 rfl
  have htail : ∀ v : UInt32, lowByte ((0x80 : UInt32) ||| (v &&& 0x3F)) = UInt8.ofNat (0x80 + v.toNat % 64) := by
    intro v
    rw [@lowByte_or 6 2 0x80 _ rfl (by rw [hmask]; exact Nat.mod_lt _ (by decide)), hmask]
    rfl
  have h6 : (cp >>> 6).toNat = cp.toNat / 64 := @toNat_shift cp 6 (by decide)
  have h12 : (cp >>> 12).toNat = cp.toNat / 4096 := @toNat_shift cp 12 (by decide)
  have h18 : (cp >>> 18).toNat = cp.toNat / 262144 := @toNat_shift cp 18 (by decide)
  unfold obUtf8 Utf8.encode
  simp only [UInt32.lt_iff_toNat_lt]
  by_cases h₁ : cp.toNat < 0x80
  · rw [if_pos h₁, if_pos (show cp.toNat < (0x80 : UInt32).toNat from h₁)]
    have : lowByte cp = UInt8.ofNat cp.toNat := by
      apply UInt8.toNat_inj.mp
      rw [lowByte, UInt32.toNat_toUInt8, UInt8.toNat_ofNat']
    rw [this]
  · rw [if_neg h₁, if_neg (show ¬cp.toNat < (0x80 : UInt32).toNat from h₁), if_neg (by decide)]
    by_cases h₂ : cp.toNat < 0x800
    · rw [if_pos h₂, if_pos (show cp.toNat < (0x800 : UInt32).toNat from h₂), htail,
        @lowByte_or 6 3 0xC0 _ rfl (by rw [h6]; omega), h6]
      rfl
    · rw [if_neg h₂, if_neg (show ¬cp.toNat < (0x800 : UInt32).toNat from h₂)]
      by_cases h₃ : cp.toNat < 0x10000
      · rw [if_pos h₃, if_pos (show cp.toNat < (0x10000 : UInt32).toNat from h₃), htail, htail,
          @lowByte_or 5 7 0xE0 _ rfl (by rw [h12]; omega), h12, h6]
        rfl
      · rw [if_neg h₃, if_neg (show ¬cp.toNat < (0x10000 : UInt32).toNat from h₃), htail, htail, htail,
          @lowByte_or 4 15 0xF0 _ rfl (by rw [h18]; omega), h18, h12, h6]
        rfl

end Numbers

section Style

/-- The colour that a cell asks for. -/
def colourOf (c : UInt32) : Colour :=
  if c = colDefault then .default else .rgb (c.toNat / 65536 % 256) (c.toNat / 256 % 256) (c.toNat % 256)

def penOf (fg bg : UInt32) (attr : UInt16) : Pen where
  fg := colourOf fg
  bg := colourOf bg
  bold := attr &&& attrBold ≠ 0
  dim := attr &&& attrDim ≠ 0
  italic := attr &&& attrItalic ≠ 0
  under := attr &&& attrUnder ≠ 0
  reverse := attr &&& attrReverse ≠ 0

variable {t : Term}

theorem feed_emitColor (h : t.mode = .ground) (c : UInt32) (fg : Bool) :
    t.feed (emitColor .true c fg) =
      { t with pen := if fg then { t.pen with fg := colourOf c } else { t.pen with bg := colourOf c } } := by
  unfold emitColor
  rw [if_neg (by decide)]
  by_cases hc : c = colDefault
  · rw [if_pos hc, colourOf, if_pos hc]
    cases fg
    · exact feed_sgr h 49
    · exact feed_sgr h 39
  · have hr : ((c >>> 16) &&& 0xFF).toNat = c.toNat / 65536 % 256 :=
      (@toNat_mask (c >>> 16) 0xFF 8 rfl).trans (congrArg (· % 2 ^ 8) (@toNat_shift c 16 (by decide)))
    have hg : ((c >>> 8) &&& 0xFF).toNat = c.toNat / 256 % 256 :=
      (@toNat_mask (c >>> 8) 0xFF 8 rfl).trans (congrArg (· % 2 ^ 8) (@toNat_shift c 8 (by decide)))
    have hb : (c &&& 0xFF).toNat = c.toNat % 256 := @toNat_mask c 0xFF 8 rfl
    rw [if_neg hc, if_pos rfl, obUint_eq, obUint_eq, obUint_eq, hr, hg, hb, colourOf, if_neg hc]
    cases fg
    · refine (congrArg t.feed ?_).trans (feed_direct h 48 _ _ _)
      simp [escText, chSemi, chM, show Decimal.render 48 = [0x34, 0x38] from rfl,
        show Decimal.render 2 = [0x32] from rfl]
    · refine (congrArg t.feed ?_).trans (feed_direct h 38 _ _ _)
      simp [escText, chSemi, chM, show Decimal.render 38 = [0x33, 0x38] from rfl,
        show Decimal.render 2 = [0x32] from rfl]

/-- An attribute of its own sequence is set if its bit is there. -/
theorem feed_attr (h : t.mode = .ground) (attr bit : UInt16) (n : Nat) {text : Bytes}
    (ht : text = Decimal.render n ++ [0x6D]) (p : Pen) :
    { t with pen := p }.feed (if attr &&& bit ≠ 0 then escText text else []) =
      { t with pen := if attr &&& bit ≠ 0 then sgrOne p n else p } := by
  split
  next =>
    rw [ht]
    exact @feed_sgr { t with pen := p } h n
  next => rfl

theorem feed_attrBytes (h : t.mode = .ground) (attr : UInt16) :
    t.feed (sgrReset ++ attrBytes attr) = { t with pen := penOf colDefault colDefault attr } := by
  have hreset : t.feed sgrReset = { t with pen := .plain } := feed_sgr h 0
  unfold attrBytes
  rw [feed_append, hreset, feed_append, feed_append, feed_append, feed_append, @feed_attr _ h attr attrBold 1 [0x31, 0x6D] rfl,
    @feed_attr _ h attr attrDim 2 [0x32, 0x6D] rfl, @feed_attr _ h attr attrItalic 3 [0x33, 0x6D] rfl,
    @feed_attr _ h attr attrUnder 4 [0x34, 0x6D] rfl, @feed_attr _ h attr attrReverse 7 [0x37, 0x6D] rfl]
  refine congrArg (fun p => { t with pen := p }) ?_
  have hset : ∀ (P₁ P₂ P₃ P₄ P₅ : Prop) [Decidable P₁] [Decidable P₂] [Decidable P₃] [Decidable P₄] [Decidable P₅],
      (let p := if P₁ then sgrOne .plain 1 else .plain
       let p := if P₂ then sgrOne p 2 else p
       let p := if P₃ then sgrOne p 3 else p
       let p := if P₄ then sgrOne p 4 else p
       if P₅ then sgrOne p 7 else p) = ⟨.default, .default, P₁, P₂, P₃, P₄, P₅⟩ := by
    intro P₁ P₂ P₃ P₄ P₅ _ _ _ _ _
    by_cases h₁ : P₁ <;> by_cases h₂ : P₂ <;> by_cases h₃ : P₃ <;> by_cases h₄ : P₄ <;> by_cases h₅ : P₅ <;>
    · simp only [h₁, h₂, h₃, h₄, h₅, if_true, if_false, decide_true, decide_false]
      rfl
  exact hset _ _ _ _ _

/-- The pen of the terminal after `apply_style` for a cell. -/
def penAfter (p : Pen) (cur : ScreenCur) (c : ScreenCell) : Pen :=
  if c.attr ≠ cur.attr then penOf c.fg c.bg c.attr
  else
    { p with fg := if c.fg ≠ cur.fg then colourOf c.fg else p.fg, bg := if c.bg ≠ cur.bg then colourOf c.bg else p.bg }

theorem feed_styleAttr (h : t.mode = .ground) (c : ScreenCell) (cur : ScreenCur) :
    t.feed (styleAttr c cur).1 =
      { t with pen := if c.attr ≠ cur.attr then penOf colDefault colDefault c.attr else t.pen } := by
  unfold styleAttr
  split
  next => exact feed_attrBytes h c.attr
  next => rfl

theorem feed_styleFg (h : t.mode = .ground) (p : Pen) (c : ScreenCell) (cur : ScreenCur) :
    { t with pen := p }.feed (styleFg .true c cur).1 =
      { t with pen := if c.fg ≠ cur.fg then { p with fg := colourOf c.fg } else p } := by
  unfold styleFg
  split
  next => exact @feed_emitColor { t with pen := p } h c.fg true
  next => rfl

theorem feed_styleBg (h : t.mode = .ground) (p : Pen) (c : ScreenCell) (cur : ScreenCur) :
    { t with pen := p }.feed (styleBg .true c cur).1 =
      { t with pen := if c.bg ≠ cur.bg then { p with bg := colourOf c.bg } else p } := by
  unfold styleBg
  split
  next => exact @feed_emitColor { t with pen := p } h c.bg false
  next => rfl

theorem feed_applyStyle (h : t.mode = .ground) (c : ScreenCell) (cur : ScreenCur) :
    t.feed (applyStyle .true c cur).1 = { t with pen := penAfter t.pen cur c } := by
  unfold applyStyle
  rw [feed_append, feed_append, feed_styleAttr h, feed_styleFg h, feed_styleBg h]
  refine congrArg (fun p => { t with pen := p }) ?_
  unfold penAfter styleAttr styleFg
  by_cases ha : c.attr = cur.attr
  · simp only [ne_eq, ha, not_true_eq_false, if_false]
    by_cases hf : c.fg = cur.fg <;> by_cases hb : c.bg = cur.bg <;> simp [hf, hb]
  · simp only [ne_eq, ha, not_false_eq_true, if_true]
    unfold penOf
    by_cases hf : c.fg = colDefault <;> by_cases hb : c.bg = colDefault <;> simp [hf, hb]

theorem applyStyle_cur (c : ScreenCell) (cur : ScreenCur) :
    (applyStyle .true c cur).2 = { cur with fg := c.fg, bg := c.bg, attr := c.attr } := by
  have hbg : ∀ cur, (styleBg .true c cur).2 = { cur with bg := c.bg } := fun cur => by
    unfold styleBg
    split
    next => rfl
    next h => rw [not_not.mp h]
  have hfg : ∀ cur, (styleFg .true c cur).2 = { cur with fg := c.fg } := fun cur => by
    unfold styleFg
    split
    next => rfl
    next h => rw [not_not.mp h]
  unfold applyStyle
  rw [hbg, hfg]
  unfold styleAttr
  split
  next => rfl
  next h => rw [not_not.mp h]

end Style

section Cell

variable {t : Term}

def shownChar (c : ScreenCell) : Nat :=
  if c.ch ≠ 0 then c.ch.toNat else 0x20

/-- What a cell looks like. -/
def glyphOf (c : ScreenCell) : Glyph :=
  ⟨shownChar c, penOf c.fg c.bg c.attr⟩

/-- The character of a cell goes to the terminal as it is. -/
def CellSafe (c : ScreenCell) : Prop :=
  c.ch ≠ 0 → Utf8.Scalar c.ch.toNat ∧ 0x20 ≤ c.ch.toNat ∧ c.ch.toNat ≠ 0x7F

theorem feed_char (h : t.mode = .ground) {c : ScreenCell} (hc : CellSafe c) :
    t.feed (obUtf8 true (if c.ch ≠ 0 then c.ch else 0x20)) = t.print (shownChar c) := by
  unfold shownChar
  split
  next hne =>
    obtain ⟨hs, hlow, hdel⟩ := hc hne
    rw [obUtf8_eq hs.le, feed_encode h hs hlow hdel]
  next => exact feed_encode h (by decide) (by decide) (by decide)

/-- The cursor of the terminal stands where the screen believes it to be, if it believes anything. -/
def CursorKnown (cur : ScreenCur) (t : Term) : Prop :=
  cur.x = -1 ∨ (cur.x = t.cx ∧ cur.y = t.cy)

theorem feed_moveTo (h : t.mode = .ground) {cur : ScreenCur} (hcur : CursorKnown cur t) {x y : Nat} (hx : x < t.width)
    (hy : y < t.height) (hw : t.width < 2 ^ 16) (hh : t.height < 2 ^ 16) :
    t.feed (moveTo x y cur).1 = { t with cx := x, cy := y } ∧ (moveTo x y cur).2 = { cur with x := x, y := y } := by
  unfold moveTo
  split
  next hat =>
    obtain hno | ⟨hcx, hcy⟩ := hcur
    · rw [hno] at hat
      exact absurd hat.2 (by omega)
    · have hx' : t.cx = x := by omega
      have hy' : t.cy = y := by omega
      refine ⟨?_, ?_⟩
      · rw [← hx', ← hy']
        rfl
      · rw [← hat.1, ← hat.2]
  next =>
    refine ⟨?_, rfl⟩
    rw [obUint_eq, obUint_eq, UInt32.toNat_ofNat', UInt32.toNat_ofNat', Nat.mod_eq_of_lt (by omega),
      Nat.mod_eq_of_lt (by omega)]
    refine Eq.trans (congrArg t.feed ?_) ((feed_cup h (y + 1) (x + 1)).trans ?_)
    · simp [escText, chSemi, chH]
    · rw [Term.move, Nat.add_sub_cancel, Nat.add_sub_cancel, Nat.min_eq_left (by omega), Nat.min_eq_left (by omega), ← h]

/-- The terminal after a changed cell has been drawn. -/
def painted (t : Term) (x y : Nat) (c : ScreenCell) (cur : ScreenCur) : Term :=
  { t with glyph := setGlyph t.glyph x y ⟨shownChar c, penAfter t.pen cur c⟩, cx := min (x + 1) (t.width - 1), cy := y,
           pen := penAfter t.pen cur c }

theorem feed_drawCell (h : t.mode = .ground) {cur : ScreenCur} (hcur : CursorKnown cur t) {x y : Nat} (hx : x < t.width)
    (hy : y < t.height) (hw : t.width < 2 ^ 16) (hh : t.height < 2 ^ 16) {c : ScreenCell} (hc : CellSafe c) :
    t.feed (drawCell .true true t.width x y c cur).1 = painted t x y c cur ∧
      (drawCell .true true t.width x y c cur).2 =
        ⟨c.fg, c.bg, c.attr, if x + 1 < t.width then x + 1 else -1, y⟩ := by
  obtain ⟨hmove, hcur'⟩ := feed_moveTo h hcur hx hy hw hh
  have hpen : penAfter t.pen { cur with x := x, y := y } c = penAfter t.pen cur c := rfl
  unfold drawCell
  simp only [hcur', applyStyle_cur]
  refine ⟨?_, trivial⟩
  rw [feed_append, feed_append, hmove, @feed_applyStyle { t with cx := x, cy := y } h,
    @feed_char { t with cx := x, cy := y, pen := penAfter t.pen { cur with x := x, y := y } c } h c hc, hpen, painted,
    Term.print, ← h]

end Cell

end Qanat
