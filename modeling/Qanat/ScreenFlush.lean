import Qanat.ScreenPaint

namespace Qanat

open Terminal

section Fits

/-- The attributes that a pen shows besides its colours. -/
def penAttrs (p : Pen) : Bool × Bool × Bool × Bool × Bool :=
  (p.bold, p.dim, p.italic, p.under, p.reverse)

/-- What is written for a cell gives the pen of the cell: it starts anew, or the pen is already what the screen
believes it to be, where nothing is written. -/
def PenFits (p : Pen) (cur : ScreenCur) (c : ScreenCell) : Prop :=
  c.attr ≠ cur.attr ∨
    (penAttrs p = penAttrs (penOf cur.fg cur.bg cur.attr) ∧ (c.fg = cur.fg → p.fg = colourOf cur.fg) ∧
      (c.bg = cur.bg → p.bg = colourOf cur.bg))

theorem penFits_iff {p : Pen} {cur : ScreenCur} {c : ScreenCell} :
    PenFits p cur c ↔ penAfter p cur c = penOf c.fg c.bg c.attr := by
  unfold PenFits penAfter
  by_cases ha : c.attr = cur.attr
  · rw [if_neg (not_not.mpr ha), or_iff_right (not_not.mpr ha), ha]
    obtain ⟨pf, pb, p₁, p₂, p₃, p₄, p₅⟩ := p
    by_cases hf : c.fg = cur.fg <;> by_cases hb : c.bg = cur.bg <;> simp [hf, hb, penAttrs, penOf] <;> tauto
  · rw [if_pos ha]
    exact ⟨fun _ => rfl, fun _ => .inl ha⟩

/-- A pen that is what the screen believes fits every cell. -/
theorem penFits_known {p : Pen} {cur : ScreenCur} (h : p = penOf cur.fg cur.bg cur.attr) (c : ScreenCell) :
    PenFits p cur c := by
  rw [h]
  exact .inr ⟨rfl, fun _ => rfl, fun _ => rfl⟩

end Fits

section Loop

variable {s : Screen} {t : Term}

/-- The cell of a position has changed since the last flush. -/
def Screen.dirty (s : Screen) (p : Nat × Nat) : Bool :=
  s.back (p.2 * s.w + p.1) ≠ s.front (p.2 * s.w + p.1)

def Screen.cell (s : Screen) (p : Nat × Nat) : ScreenCell :=
  s.back (p.2 * s.w + p.1)

/-- What the screen and its terminal have in common at any time. -/
structure Attached (s : Screen) (t : Term) : Prop where
  width : t.width = s.w
  height : t.height = s.h
  width_lt : s.w < 2 ^ 16
  height_lt : s.h < 2 ^ 16
  ground : t.mode = .ground
  safe : ∀ i, CellSafe (s.back i)

/-- What the loop of a flush has done over some positions. -/
structure Flushed (s : Screen) (ps : List (Nat × Nat)) (cur : ScreenCur) (t : Term) (bytes : Bytes) (cur' : ScreenCur) :
    Prop where
  attached : Attached s (t.feed bytes)
  cursor : CursorKnown cur' (t.feed bytes)
  quiet : bytes = [] ↔ ∀ p ∈ ps, s.dirty p = false
  kept : ∀ p, (p ∈ ps → s.dirty p = false) → (t.feed bytes).glyph p.1 p.2 = t.glyph p.1 p.2
  first : ∀ p, ps.find? s.dirty = some p →
    (t.feed bytes).glyph p.1 p.2 = ⟨shownChar (s.cell p), penAfter t.pen cur (s.cell p)⟩
  drawn : (∀ p, ps.find? s.dirty = some p → PenFits t.pen cur (s.cell p)) →
    ∀ p ∈ ps, s.dirty p = true → (t.feed bytes).glyph p.1 p.2 = glyphOf (s.cell p)

theorem setGlyph_same (g : Nat → Nat → Glyph) (x y : Nat) (v : Glyph) : setGlyph g x y v x y = v :=
  if_pos ⟨rfl, rfl⟩

theorem setGlyph_other {g : Nat → Nat → Glyph} {x y : Nat} {v : Glyph} {p : Nat × Nat} (h : p ≠ (x, y)) :
    setGlyph g x y v p.1 p.2 = g p.1 p.2 :=
  if_neg fun he => h (Prod.ext he.1 he.2)

theorem drawCell_ne_nil (depth : ColorDepth) (utf8 : Bool) (w x y : Nat) (c : ScreenCell) (cur : ScreenCur) :
    (drawCell depth utf8 w x y c cur).1 ≠ [] := by
  have hchar : ∀ cp, obUtf8 utf8 cp ≠ [] := fun cp => by
    unfold obUtf8
    split_ifs <;> exact List.cons_ne_nil _ _
  unfold drawCell
  dsimp only
  intro h
  exact hchar _ (List.append_eq_nil_iff.mp h).2

/-- The loop of a flush over positions of the screen. -/
theorem flushLoop_flushed {ps : List (Nat × Nat)} (hin : ∀ p ∈ ps, p.1 < s.w ∧ p.2 < s.h) (hps : ps.Nodup)
    {cur : ScreenCur} (h : Attached s t) (hcur : CursorKnown cur t) (out : Bytes) :
    ∃ bytes cur', ps.foldl (flushCell .true true s) (out, cur) = (out ++ bytes, cur') ∧
      Flushed s ps cur t bytes cur' := by
  induction ps generalizing cur t out with
  | nil =>
    refine ⟨[], cur, by rw [List.append_nil]; rfl, h, hcur, ?_, fun _ _ => rfl, nofun, fun _ p hp => ?_⟩
    · simp
    · exact absurd hp List.not_mem_nil
  | cons p ps ih =>
    obtain ⟨hp, hps'⟩ := List.nodup_cons.mp hps
    obtain ⟨hx, hy⟩ := hin p List.mem_cons_self
    have hin' := fun q hq => hin q (List.mem_cons_of_mem p hq)
    rw [List.foldl_cons]
    by_cases hd : s.dirty p = true
    · -- a changed cell is drawn, and from there on the pen is known
      obtain ⟨hfeed, hnext⟩ := feed_drawCell h.ground hcur (h.width ▸ hx) (h.height ▸ hy) (h.width ▸ h.width_lt)
        (h.height ▸ h.height_lt) (h.safe (p.2 * s.w + p.1))
      rw [h.width] at hfeed hnext
      have hstep : flushCell .true true s (out, cur) p =
          (out ++ (drawCell .true true s.w p.1 p.2 (s.cell p) cur).1,
            ⟨(s.cell p).fg, (s.cell p).bg, (s.cell p).attr, if p.1 + 1 < s.w then p.1 + 1 else -1, p.2⟩) := by
        unfold flushCell
        rw [if_neg (by simpa [Screen.dirty] using hd)]
        exact Prod.ext rfl hnext
      have hpos : 0 < s.w := Nat.lt_of_le_of_lt (Nat.zero_le _) hx
      have hcursor : CursorKnown
          ⟨(s.cell p).fg, (s.cell p).bg, (s.cell p).attr, if p.1 + 1 < s.w then p.1 + 1 else -1, p.2⟩
          (painted t p.1 p.2 (s.cell p) cur) := by
        unfold CursorKnown painted
        dsimp only
        rw [h.width]
        split
        next hlt => exact .inr ⟨by omega, rfl⟩
        next => exact .inl rfl
      obtain ⟨bytes, cur', hrun, hflushed⟩ := ih hin' hps'
        (show Attached s (painted t p.1 p.2 (s.cell p) cur) from
          ⟨h.width, h.height, h.width_lt, h.height_lt, h.ground, h.safe⟩) hcursor
        (out ++ (drawCell .true true s.w p.1 p.2 (s.cell p) cur).1)
      have hall : t.feed ((drawCell .true true s.w p.1 p.2 (s.cell p) cur).1 ++ bytes) =
          (painted t p.1 p.2 (s.cell p) cur).feed bytes := by
        rw [feed_append]
        exact congrArg (fun t => t.feed bytes) hfeed
      have hhere : ((painted t p.1 p.2 (s.cell p) cur).feed bytes).glyph p.1 p.2 =
          ⟨shownChar (s.cell p), penAfter t.pen cur (s.cell p)⟩ := by
        rw [hflushed.kept p fun hmem => absurd hmem hp]
        exact setGlyph_same _ _ _ _
      refine ⟨_, cur', by rw [hstep, hrun, List.append_assoc], ?_⟩
      constructor
      · rw [hall]
        exact hflushed.attached
      · rw [hall]
        exact hflushed.cursor
      · constructor
        · exact fun hnil => absurd (List.append_eq_nil_iff.mp hnil).1 (drawCell_ne_nil _ _ _ _ _ _ _)
        · intro hclean
          rw [hclean p List.mem_cons_self] at hd
          cases hd
      · intro q hq
        have hne : q ≠ p := by
          rintro rfl
          rw [hq List.mem_cons_self] at hd
          cases hd
        rw [hall, hflushed.kept q fun hmem => hq (List.mem_cons_of_mem p hmem)]
        exact setGlyph_other hne
      · intro q hq
        rw [List.find?_cons_of_pos hd] at hq
        obtain rfl := Option.some.inj hq
        rw [hall, hhere]
      · intro hfit q hq hdq
        rw [hall]
        have hpen : penAfter t.pen cur (s.cell p) = penOf (s.cell p).fg (s.cell p).bg (s.cell p).attr :=
          penFits_iff.mp (hfit p (List.find?_cons_of_pos hd))
        obtain rfl | hq := List.mem_cons.mp hq
        · rw [hhere, hpen]
          rfl
        · exact hflushed.drawn (fun r _ => penFits_known hpen (s.cell r)) q hq hdq
    · rw [Bool.not_eq_true] at hd
      have hstep : flushCell .true true s (out, cur) p = (out, cur) := by
        unfold flushCell
        rw [if_pos (by simpa [Screen.dirty] using hd)]
      have hfind : (p :: ps).find? s.dirty = ps.find? s.dirty := List.find?_cons_of_neg (by rw [hd]; decide)
      obtain ⟨bytes, cur', hrun, hflushed⟩ := ih hin' hps' h hcur out
      refine ⟨bytes, cur', by rw [hstep, hrun], hflushed.attached, hflushed.cursor, ?_, ?_, ?_, ?_⟩
      · rw [hflushed.quiet, List.forall_mem_cons]
        exact ⟨fun hc => ⟨hd, hc⟩, fun hc => hc.2⟩
      · exact fun q hq => hflushed.kept q fun hmem => hq (List.mem_cons_of_mem p hmem)
      · rw [hfind]
        exact hflushed.first
      · rw [hfind]
        intro hfit q hq hdq
        obtain rfl | hq := List.mem_cons.mp hq
        · rw [hd] at hdq
          cases hdq
        · exact hflushed.drawn hfit q hq hdq

end Loop

end Qanat
