import Qanat.ScreenFlush
import Mathlib.Data.List.Nodup

namespace Qanat

open Terminal

section Flush

variable {s : Screen} {t : Term}

theorem mem_positions {w h : Nat} {p : Nat × Nat} : p ∈ positions w h ↔ p.1 < w ∧ p.2 < h := by
  unfold positions
  rw [List.mem_flatMap]
  constructor
  · rintro ⟨y, hy, hp⟩
    obtain ⟨x, hx, rfl⟩ := List.mem_map.mp hp
    exact ⟨List.mem_range.mp hx, List.mem_range.mp hy⟩
  · rintro ⟨hx, hy⟩
    exact ⟨p.2, List.mem_range.mpr hy, List.mem_map.mpr ⟨p.1, List.mem_range.mpr hx, rfl⟩⟩

theorem nodup_positions (w h : Nat) : (positions w h).Nodup := by
  unfold positions
  refine List.nodup_flatMap.mpr ⟨fun y _ => ?_, ?_⟩
  · exact List.Nodup.map (fun a b he => (Prod.mk.inj he).1) List.nodup_range
  · refine List.nodup_range.imp fun {a b} hne => ?_
    intro p ha hb
    obtain ⟨x, -, rfl⟩ := List.mem_map.mp ha
    obtain ⟨x', -, he⟩ := List.mem_map.mp hb
    exact hne (Prod.mk.inj he).2.symm

theorem flushLoop_eq (h : Attached s t) (hcur : CursorKnown s.cur t) :
    Flushed s (positions s.w s.h) s.cur t (flushLoop .true true s).1 (flushLoop .true true s).2 := by
  obtain ⟨bytes, cur', hrun, hflushed⟩ :=
    flushLoop_flushed (fun p hp => mem_positions.mp hp) (nodup_positions s.w s.h) h hcur []
  have hloop : flushLoop .true true s = (bytes, cur') := hrun
  rw [hloop]
  exact hflushed

/-- Every cell of the terminal shows the cell of the back buffer. -/
def ScreenShown (s : Screen) (t : Term) : Prop :=
  ∀ x y, x < s.w → y < s.h → t.glyph x y = glyphOf (s.back (y * s.w + x))

/-- What the front buffer holds is either marked as unknown or on the terminal. -/
def FrontKnown (s : Screen) (t : Term) : Prop :=
  ∀ x y, x < s.w → y < s.h →
    (s.front (y * s.w + x)).ch = 0xFFFFFFFF ∨ t.glyph x y = glyphOf (s.front (y * s.w + x))

/-- The first changed cell gets its pen. -/
def PenReady (s : Screen) (t : Term) : Prop :=
  ∀ p, (positions s.w s.h).find? s.dirty = some p → PenFits t.pen s.cur (s.cell p)

theorem cellSafe_ne {c : ScreenCell} (h : CellSafe c) : c.ch ≠ 0xFFFFFFFF := by
  intro hc
  have hs := (h (by rw [hc]; decide)).1.le
  rw [hc] at hs
  exact absurd hs (by decide)

theorem feed_reset (h : t.mode = .ground) : t.feed sgrReset = { t with pen := .plain } :=
  feed_sgr h 0

/-- A clean cell of a known front buffer is on the terminal already. -/
theorem shown_of_clean (h : Attached s t) (hf : FrontKnown s t) {x y : Nat} (hx : x < s.w) (hy : y < s.h)
    (hd : s.dirty (x, y) = false) : t.glyph x y = glyphOf (s.back (y * s.w + x)) := by
  have heq : s.back (y * s.w + x) = s.front (y * s.w + x) := by simpa [Screen.dirty] using hd
  obtain hno | hshown := hf x y hx hy
  · rw [← heq] at hno
    exact absurd hno (cellSafe_ne (h.safe _))
  · rw [heq]
    exact hshown

/-- The state of the screen and its terminal after a delivered flush. -/
structure AfterFlush (s : Screen) (t : Term) : Prop where
  attached : Attached s t
  cursor : CursorKnown s.cur t

theorem flushBytes_feed (h : Attached s t) (hcur : CursorKnown s.cur t) (x y : Nat) :
    (t.feed (flushBytes .true true s)).glyph x y = (t.feed (flushLoop .true true s).1).glyph x y ∧
      AfterFlush (flushDone .true true s) (t.feed (flushBytes .true true s)) := by
  have hloop := flushLoop_eq h hcur
  unfold flushBytes flushDone
  dsimp only
  by_cases hnil : (flushLoop .true true s).1 = []
  · rw [if_pos hnil, if_pos hnil, hnil]
    exact ⟨rfl, h, hcur⟩
  · rw [if_neg hnil, if_neg hnil, feed_append, feed_reset hloop.attached.ground]
    refine ⟨rfl, ⟨hloop.attached.width, hloop.attached.height, h.width_lt, h.height_lt, hloop.attached.ground, h.safe⟩,
      hloop.cursor⟩

theorem flushDone_back (depth : ColorDepth) (utf8 : Bool) (s : Screen) :
    (flushDone depth utf8 s).back = s.back ∧ (flushDone depth utf8 s).w = s.w ∧ (flushDone depth utf8 s).h = s.h := by
  unfold flushDone
  dsimp only
  split <;> exact ⟨rfl, rfl, rfl⟩

/-- A delivered flush shows the back buffer exactly when its first changed cell gets its pen. -/
theorem flush_shows_iff (h : Attached s t) (hcur : CursorKnown s.cur t) (hf : FrontKnown s t) :
    ScreenShown (flushDone .true true s) (t.feed (flushBytes .true true s)) ↔ PenReady s t := by
  have hloop := flushLoop_eq h hcur
  obtain ⟨hback, hw, hh⟩ := flushDone_back .true true s
  unfold ScreenShown
  rw [hback, hw, hh]
  constructor
  · intro hshows p hp
    obtain ⟨hx, hy⟩ := mem_positions.mp (List.mem_of_find?_eq_some hp)
    have hglyph := hshows p.1 p.2 hx hy
    rw [(flushBytes_feed h hcur p.1 p.2).1, hloop.first p hp] at hglyph
    exact penFits_iff.mpr (congrArg Glyph.pen hglyph)
  · intro hready x y hx hy
    rw [(flushBytes_feed h hcur x y).1]
    by_cases hd : s.dirty (x, y) = true
    · exact hloop.drawn hready (x, y) (mem_positions.mpr ⟨hx, hy⟩) hd
    · rw [Bool.not_eq_true] at hd
      have hkept := hloop.kept (x, y) fun _ => hd
      dsimp only at hkept
      rw [hkept]
      exact shown_of_clean h hf hx hy hd

/-- A flush that follows a delivered one without drawing writes nothing. -/
theorem flushBytes_again (h : Attached s t) (hcur : CursorKnown s.cur t) :
    flushBytes .true true (flushDone .true true s) = [] := by
  have hclean : ∀ p ∈ positions s.w s.h, (flushDone .true true s).dirty p = false := by
    intro p hp
    unfold flushDone
    dsimp only
    split
    next hnil => exact ((flushLoop_eq h hcur).quiet.mp hnil) p hp
    next => simp [Screen.dirty]
  obtain ⟨hback, hw, hh⟩ := flushDone_back .true true s
  have hafter := (flushBytes_feed h hcur 0 0).2
  have hloop := flushLoop_eq hafter.attached hafter.cursor
  have hnil : (flushLoop .true true (flushDone .true true s)).1 = [] := by
    rw [hloop.quiet, hw, hh]
    exact hclean
  exact if_pos hnil

end Flush

section Drawing

/-- A drawing operation changes cells of the back buffer only, into safe ones with its attributes. -/
structure Redrawn (attr : UInt16) (s s' : Screen) : Prop where
  w : s'.w = s.w
  h : s'.h = s.h
  front : s'.front = s.front
  cur : s'.cur = s.cur
  back : ∀ i, s'.back i = s.back i ∨ (CellSafe (s'.back i) ∧ (s'.back i).attr = attr)

variable {attr : UInt16} {s s' s'' : Screen}

theorem Redrawn.refl (attr : UInt16) (s : Screen) : Redrawn attr s s :=
  ⟨rfl, rfl, rfl, rfl, fun _ => .inl rfl⟩

theorem Redrawn.trans (h : Redrawn attr s s') (h' : Redrawn attr s' s'') : Redrawn attr s s'' := by
  refine ⟨h'.w.trans h.w, h'.h.trans h.h, h'.front.trans h.front, h'.cur.trans h.cur, fun i => ?_⟩
  obtain hi | hi := h'.back i
  · rw [hi]
    exact h.back i
  · exact .inr hi

theorem redrawn_foldl {α : Type} {f : Screen → α → Screen} (hf : ∀ s a, Redrawn attr s (f s a)) (as : List α)
    (s : Screen) : Redrawn attr s (as.foldl f s) := by
  induction as generalizing s with
  | nil => exact .refl _ _
  | cons a as ih => exact (hf s a).trans (ih _)

theorem safeCell_safe (cp fg bg : UInt32) (attr : UInt16) : CellSafe ⟨safeCell cp, fg, bg, attr⟩ := by
  intro _
  change Utf8.Scalar (safeCell cp).toNat ∧ 0x20 ≤ (safeCell cp).toNat ∧ (safeCell cp).toNat ≠ 0x7F
  unfold safeCell
  split
  next => decide
  next hctl =>
    split
    next => decide
    next hsur =>
      simp only [UInt32.lt_iff_toNat_lt, UInt32.le_iff_toNat_le, ← UInt32.toNat_inj] at hctl hsur
      change ¬(cp.toNat < 32 ∨ cp.toNat = 127 ∨ (128 ≤ cp.toNat ∧ cp.toNat ≤ 159)) at hctl
      change ¬((55296 ≤ cp.toNat ∧ cp.toNat ≤ 57343) ∨ 1114111 < cp.toNat) at hsur
      unfold Utf8.Scalar
      omega

theorem screenPut_redrawn (x y : Int) (ch fg bg : UInt32) (attr : UInt16) (s : Screen) :
    Redrawn attr s (screenPut x y ch fg bg attr s) := by
  unfold screenPut
  split
  next => exact .refl _ _
  next =>
    refine ⟨rfl, rfl, rfl, rfl, fun i => ?_⟩
    dsimp only
    split
    next => exact .inr ⟨safeCell_safe _ _ _ _, rfl⟩
    next => exact .inl rfl

theorem textLoop_redrawn (x y maxw : Int) (fg bg : UInt32) (attr : UInt16) (skip : Nat) (n : Int) (m : Bytes)
    (s : Screen) : Redrawn attr s (textLoop x y maxw fg bg attr skip n m s) := by
  induction m generalizing skip n s with
  | nil =>
    unfold textLoop
    exact .refl _ _
  | cons c m ih =>
    cases skip with
    | succ skip =>
      rw [textLoop]
      exact ih _ _ _
    | zero =>
      rw [textLoop]
      split
      next =>
        split
        next => exact .refl _ _
        next => exact (screenPut_redrawn _ _ _ _ _ _ _).trans (ih _ _ _)
      next => exact .refl _ _

theorem screenTextn_redrawn (x y : Int) (str : Bytes) (maxw : Int) (fg bg : UInt32) (attr : UInt16) (s : Screen) :
    Redrawn attr s (screenTextn x y str maxw fg bg attr s) := by
  unfold screenTextn
  split
  next => exact .refl _ _
  next => exact textLoop_redrawn _ _ _ _ _ _ _ _ _ _

theorem draw_redrawn (op : DrawOp) (s : Screen) : Redrawn op.attr s (op.draw s) := by
  cases op with
  | put x y ch fg bg attr => exact screenPut_redrawn x y ch fg bg attr s
  | textn x y str maxw fg bg attr => exact screenTextn_redrawn x y str maxw fg bg attr s
  | text x y str fg bg attr => exact screenTextn_redrawn x y str s.w fg bg attr s
  | fill x y w h ch fg bg attr => exact redrawn_foldl (fun s p => screenPut_redrawn _ _ ch fg bg attr s) _ s
  | hline x y w ch fg bg => exact redrawn_foldl (fun s i => screenPut_redrawn _ _ ch fg bg 0 s) _ s
  | clear bg =>
    refine ⟨rfl, rfl, rfl, rfl, fun i => ?_⟩
    change (if i < s.w * s.h then _ else _) = _ ∨ _
    by_cases hi : i < s.w * s.h
    · have hcell : (screenClear bg s).back i = ⟨0x20, colDefault, bg, 0⟩ := if_pos hi
      refine .inr ⟨?_, ?_⟩
      · change CellSafe ((screenClear bg s).back i)
        rw [hcell]
        exact fun _ => ⟨(by decide : Utf8.Scalar 32), (by decide : 32 ≤ 32), (by decide : 32 ≠ 127)⟩
      · change ((screenClear bg s).back i).attr = 0
        rw [hcell]
    · exact .inl (if_neg hi)

end Drawing

section Run

/-- A terminal of the size of the screen, between control sequences; it may show anything. -/
def SameSize (s : Screen) (t : Term) : Prop :=
  t.width = s.w ∧ t.height = s.h ∧ t.mode = .ground

/-- The states that a screen and its terminal reach, from `qn_screen_init` on: drawing operations that are allowed,
resizes to a terminal of the new size, delivered flushes, and where cuts are allowed flushes that fail after some of
their bytes. A refused resize and a flush without memory for its bytes change nothing. -/
inductive ScreenRun (allowed : DrawOp → Prop) (cuts : Prop) : Screen → Term → Prop
  | start {w h s t} : screenResize w h = some s → SameSize s t → ScreenRun allowed cuts s t
  | draw {s t} (op) : ScreenRun allowed cuts s t → allowed op → ScreenRun allowed cuts (op.draw s) t
  | resize {s t w h s' t'} : ScreenRun allowed cuts s t → screenResize w h = some s' → SameSize s' t' →
    ScreenRun allowed cuts s' t'
  | flush {s t} : ScreenRun allowed cuts s t →
    ScreenRun allowed cuts (flushDone .true true s) (t.feed (flushBytes .true true s))
  | cut {s t bytes} : ScreenRun allowed cuts s t → cuts → bytes <+: flushBytes .true true s →
    bytes ≠ flushBytes .true true s → (t.feed bytes).mode = .ground →
    ScreenRun allowed cuts (flushFailed .true true s) (t.feed bytes)

variable {allowed : DrawOp → Prop} {cuts : Prop} {s s' : Screen} {t t' : Term}

theorem Attached.draw (h : Attached s t) (op : DrawOp) : Attached (op.draw s) t := by
  have hr := draw_redrawn op s
  refine ⟨h.width.trans hr.w.symm, h.height.trans hr.h.symm, hr.w.symm ▸ h.width_lt, hr.h.symm ▸ h.height_lt, h.ground,
    fun i => ?_⟩
  obtain hi | ⟨hi, -⟩ := hr.back i
  · rw [hi]
    exact h.safe i
  · exact hi

/-- What a resize leaves behind. -/
structure ScreenFresh (s : Screen) : Prop where
  pos : 0 < s.w * s.h
  cur : s.cur = ⟨colDefault, colDefault, 0xFFFF, -1, -1⟩
  front : ∀ i, (s.front i).ch = 0xFFFFFFFF
  back : ∀ i, s.back i = ⟨0, 0, 0, 0⟩
  width_lt : s.w < 2 ^ 16
  height_lt : s.h < 2 ^ 16

theorem screenResize_fresh {w h : UInt16} (hs : screenResize w h = some s) : ScreenFresh s := by
  unfold screenResize at hs
  split at hs
  next => cases hs
  next hn =>
    cases hs
    exact ⟨Nat.pos_of_ne_zero hn, rfl, fun _ => rfl, fun _ => rfl, w.toNat_lt, h.toNat_lt⟩

theorem ScreenFresh.attached (h : ScreenFresh s) (ht : SameSize s t) : Attached s t ∧ CursorKnown s.cur t := by
  refine ⟨⟨ht.1, ht.2.1, h.width_lt, h.height_lt, ht.2.2, fun i hne => ?_⟩, ?_⟩
  · rw [h.back] at hne
    exact absurd rfl hne
  · rw [h.cur]
    exact .inl rfl

/-- In every run the terminal keeps its size and is between control sequences, and the cursor is known. -/
theorem ScreenRun.attached (h : ScreenRun allowed cuts s t) : Attached s t ∧ CursorKnown s.cur t := by
  induction h with
  | start hs ht => exact (screenResize_fresh hs).attached ht
  | @draw s t op _ _ ih =>
    refine ⟨ih.1.draw op, ?_⟩
    rw [(draw_redrawn op s).cur]
    exact ih.2
  | resize _ hs ht _ => exact (screenResize_fresh hs).attached ht
  | flush _ ih =>
    have hafter := (flushBytes_feed ih.1 ih.2 0 0).2
    exact ⟨hafter.attached, hafter.cursor⟩
  | @cut s t bytes _ _ _ _ hground ih =>
    obtain ⟨hw, hh⟩ := feed_size t bytes
    exact ⟨⟨hw.trans ih.1.width, hh.trans ih.1.height, ih.1.width_lt, ih.1.height_lt, hground, ih.1.safe⟩, .inl rfl⟩

end Run

section InStep

variable {s s' : Screen} {t t' : Term}

/-- What holds in a run without failed writes: the front buffer and the style are known. -/
structure InStep (s : Screen) (t : Term) : Prop where
  front : FrontKnown s t
  pen : s.cur.attr = 0xFFFF ∨ t.pen = penOf s.cur.fg s.cur.bg s.cur.attr
  attr : ∀ i, (s.back i).attr ≠ 0xFFFF

theorem InStep.ready (h : InStep s t) : PenReady s t := by
  intro p _
  obtain hno | hpen := h.pen
  · exact .inl (by rw [hno]; exact h.attr _)
  · exact penFits_known hpen _

theorem ScreenFresh.steady (h : ScreenFresh s) : InStep s t := by
  refine ⟨fun x y _ _ => .inl (h.front _), .inl (by rw [h.cur]), fun i => ?_⟩
  rw [h.back]
  decide

theorem InStep.draw (h : InStep s t) (op : DrawOp) (hop : op.attr ≠ 0xFFFF) : InStep (op.draw s) t := by
  have hr := draw_redrawn op s
  refine ⟨fun x y hx hy => ?_, by rw [hr.cur]; exact h.pen, fun i => ?_⟩
  · rw [hr.front, hr.w]
    exact h.front x y (hr.w ▸ hx) (hr.h ▸ hy)
  · obtain hi | ⟨-, hi⟩ := hr.back i
    · rw [hi]
      exact h.attr i
    · rw [hi]
      exact hop

theorem plain_pen (cur : ScreenCur) : Pen.plain = penOf (plainCur cur).fg (plainCur cur).bg (plainCur cur).attr := by
  change Pen.plain = penOf colDefault colDefault 0
  decide

theorem InStep.flush (ha : Attached s t) (hcur : CursorKnown s.cur t) (h : InStep s t) :
    InStep (flushDone .true true s) (t.feed (flushBytes .true true s)) := by
  have hshown := (flush_shows_iff ha hcur h.front).mpr h.ready
  have hground := (flushLoop_eq ha hcur).attached.ground
  unfold flushBytes flushDone at *
  dsimp only at *
  by_cases hnil : (flushLoop .true true s).1 = []
  · rw [if_pos hnil, if_pos hnil]
    exact h
  · rw [if_neg hnil, if_neg hnil] at hshown ⊢
    refine ⟨fun x y hx hy => .inr (hshown x y hx hy), .inr ?_, h.attr⟩
    rw [feed_append, feed_reset hground]
    exact plain_pen _

theorem ScreenRun.steady (h : ScreenRun (fun op => op.attr ≠ 0xFFFF) False s t) : InStep s t := by
  induction h with
  | start hs _ => exact (screenResize_fresh hs).steady
  | draw op _ hop ih => exact ih.draw op hop
  | resize _ hs _ _ => exact (screenResize_fresh hs).steady
  | flush hrun ih =>
    obtain ⟨ha, hcur⟩ := hrun.attached
    exact ih.flush ha hcur
  | cut _ hno _ _ _ _ => exact hno.elim

/-- Every delivered flush shows the back buffer, and another one behind it writes nothing. -/
theorem screen_faithful (h : ScreenRun (fun op => op.attr ≠ 0xFFFF) False s t) :
    ScreenShown (flushDone .true true s) (t.feed (flushBytes .true true s)) ∧
      flushBytes .true true (flushDone .true true s) = [] := by
  obtain ⟨ha, hcur⟩ := h.attached
  exact ⟨(flush_shows_iff ha hcur h.steady.front).mpr h.steady.ready, flushBytes_again ha hcur⟩

/-- A terminal of one cell. -/
def tinyTerm : Term :=
  ⟨1, 1, fun _ _ => ⟨0x3F, .plain⟩, 0, 0, .plain, .ground⟩

def tinyScreen : Screen :=
  ⟨fun _ => ⟨0xFFFFFFFF, 0, 0, 0⟩, fun _ => ⟨0, 0, 0, 0⟩, 1, 1, ⟨colDefault, colDefault, 0xFFFF, -1, -1⟩⟩

theorem tinyScreen_start (allowed : DrawOp → Prop) (cuts : Prop) : ScreenRun allowed cuts tinyScreen tinyTerm :=
  @ScreenRun.start allowed cuts 1 1 _ _ rfl ⟨rfl, rfl, rfl⟩

def gridTerm (w h : Nat) : Term :=
  ⟨w, h, fun _ _ => ⟨0x3F, .plain⟩, 0, 0, .plain, .ground⟩

def gridScreen (w h : Nat) : Screen :=
  ⟨fun _ => ⟨0xFFFFFFFF, 0, 0, 0⟩, fun _ => ⟨0, 0, 0, 0⟩, w, h, ⟨colDefault, colDefault, 0xFFFF, -1, -1⟩⟩

/-- A bold word over a red line. -/
def written : Screen :=
  screenHline 0 1 3 0x2D 0xFF0000 colDefault
    (screenText 0 0 [0x48, 0x69, 0x21] colDefault 0x0000FF attrBold (gridScreen 3 2))

def writtenTerm : Term :=
  (gridTerm 3 2).feed (flushBytes .true true written)

/-- One character of the word drawn again, plain and green. -/
def edited : Screen :=
  screenPut 1 0 0x6F 0x00FF00 colDefault 0 (flushDone .true true written)

theorem edited_run {allowed : DrawOp → Prop} (hop : ∀ op : DrawOp, op.attr ≠ 0xFFFF → allowed op) (cuts : Prop) :
    ScreenRun allowed cuts edited writtenTerm := by
  have hstart : ScreenRun allowed cuts (gridScreen 3 2) (gridTerm 3 2) :=
    @ScreenRun.start allowed cuts 3 2 _ _ rfl ⟨rfl, rfl, rfl⟩
  have hword := hstart.draw (.text 0 0 [0x48, 0x69, 0x21] colDefault 0x0000FF attrBold) (hop _ (by decide))
  have hline := hword.draw (.hline 0 1 3 0x2D 0xFF0000 colDefault) (hop _ (by decide))
  exact hline.flush.draw (.put 1 0 0x6F 0x00FF00 colDefault 0) (hop _ (by decide))

/-- A larger screen in its place, with a block drawn on it. -/
def grown : Screen :=
  screenFill 1 1 3 2 0x23 0x00FF00 colDefault attrBold (gridScreen 4 3)

theorem screen_faithful_grid :
    (ScreenShown (flushDone .true true edited) (writtenTerm.feed (flushBytes .true true edited)) ∧
      flushBytes .true true (flushDone .true true edited) = []) ∧
    (flushBytes .true true edited).length < (flushBytes .true true written).length ∧
    ScreenShown (flushDone .true true grown) ((gridTerm 4 3).feed (flushBytes .true true grown)) ∧
      flushBytes .true true (flushDone .true true grown) = [] := by
  have hedited := edited_run (fun _ h => h) False
  have hresized := @ScreenRun.resize _ _ _ _ 4 3 _ (gridTerm 4 3) hedited.flush rfl ⟨rfl, rfl, rfl⟩
  have hgrown := hresized.draw (.fill 1 1 3 2 0x23 0x00FF00 colDefault attrBold) (by decide)
  exact ⟨screen_faithful hedited, by decide, screen_faithful hgrown⟩

/-- The attributes that stand for an unknown style are not written. -/
theorem screen_sentinel_shown :
    ScreenRun (fun _ => True) False (screenPut 0 0 0x41 colDefault colDefault 0xFFFF tinyScreen) tinyTerm ∧
      ¬ScreenShown (flushDone .true true (screenPut 0 0 0x41 colDefault colDefault 0xFFFF tinyScreen))
        (tinyTerm.feed (flushBytes .true true (screenPut 0 0 0x41 colDefault colDefault 0xFFFF tinyScreen))) := by
  refine ⟨(tinyScreen_start _ _).draw (.put 0 0 0x41 colDefault colDefault 0xFFFF) trivial, fun h => ?_⟩
  have hcell := h 0 0 (by decide) (by decide)
  revert hcell
  decide

end InStep

section Recovery

/-- The states behind a flush that failed, until the next one that is delivered. -/
inductive ScreenInterrupted : Screen → Term → Prop
  | cut {s t bytes} : ScreenRun (fun _ => True) True s t → bytes <+: flushBytes .true true s →
    bytes ≠ flushBytes .true true s → (t.feed bytes).mode = .ground →
    ScreenInterrupted (flushFailed .true true s) (t.feed bytes)
  | draw {s t} (op : DrawOp) : ScreenInterrupted s t → ScreenInterrupted (op.draw s) t
  | resize {s t w h s' t'} : ScreenInterrupted s t → screenResize w h = some s' → SameSize s' t' →
    ScreenInterrupted s' t'

variable {s : Screen} {t : Term}

theorem ScreenInterrupted.run (h : ScreenInterrupted s t) : ScreenRun (fun _ => True) True s t := by
  induction h with
  | cut hrun hprefix hne hground => exact hrun.cut trivial hprefix hne hground
  | draw op _ ih => exact ih.draw op trivial
  | resize _ hs ht ih => exact ih.resize hs ht

theorem ScreenRun.pos {allowed : DrawOp → Prop} {cuts : Prop} (h : ScreenRun allowed cuts s t) : 0 < s.w * s.h := by
  induction h with
  | start hs _ => exact (screenResize_fresh hs).pos
  | @draw s t op _ _ ih =>
    rw [(draw_redrawn op s).w, (draw_redrawn op s).h]
    exact ih
  | resize _ hs _ _ => exact (screenResize_fresh hs).pos
  | @flush s t _ ih =>
    obtain ⟨-, hw, hh⟩ := flushDone_back .true true s
    rw [hw, hh]
    exact ih
  | cut _ _ _ _ _ ih => exact ih

theorem ScreenInterrupted.front (h : ScreenInterrupted s t) (i : Nat) : (s.front i).ch = 0xFFFFFFFF := by
  induction h with
  | cut _ _ _ _ => rfl
  | @draw s t op _ ih =>
    rw [(draw_redrawn op s).front]
    exact ih
  | resize _ hs _ _ => exact (screenResize_fresh hs).front i

/-- The first cell is the first changed one when all are. -/
theorem find_first (hpos : 0 < s.w * s.h) (hall : ∀ p, s.dirty p = true) :
    (positions s.w s.h).find? s.dirty = some (0, 0) := by
  obtain ⟨w, hw⟩ := Nat.exists_eq_succ_of_ne_zero (Nat.pos_of_mul_pos_right hpos).ne'
  obtain ⟨h, hh⟩ := Nat.exists_eq_succ_of_ne_zero (Nat.pos_of_mul_pos_left hpos).ne'
  rw [hw, hh, positions, List.range_succ_eq_map, List.range_succ_eq_map]
  simp [hall]

/-- Behind a failed flush the next delivered one shows the back buffer exactly when its first cell gets its pen. -/
theorem screen_recovers (h : ScreenInterrupted s t) :
    ScreenShown (flushDone .true true s) (t.feed (flushBytes .true true s)) ↔ PenFits t.pen s.cur (s.back 0) := by
  obtain ⟨ha, hcur⟩ := h.run.attached
  have hall : ∀ p, s.dirty p = true := by
    intro p
    have hne := cellSafe_ne (ha.safe (p.2 * s.w + p.1))
    have hfront := h.front (p.2 * s.w + p.1)
    unfold Screen.dirty
    exact decide_eq_true fun he => hne (by rw [he, hfront])
  have hfirst := find_first h.run.pos hall
  rw [flush_shows_iff ha hcur fun x y _ _ => .inl (h.front _)]
  have hcell : s.cell (0, 0) = s.back 0 := by
    rw [Screen.cell, Nat.zero_mul, Nat.zero_add]
  constructor
  · intro hready
    rw [← hcell]
    exact hready _ hfirst
  · intro hfit p hp
    obtain rfl := Option.some.inj (hfirst.symm.trans hp)
    rw [hcell]
    exact hfit

/-- A red character of which all but the last reset is written. -/
def tinyRed : Screen :=
  screenPut 0 0 0x41 0xFF0000 colDefault 0 tinyScreen

def tinyCut : Bytes :=
  (flushBytes .true true tinyRed).take 26

theorem tinyRed_cut : ScreenInterrupted (flushFailed .true true tinyRed) (tinyTerm.feed tinyCut) :=
  .cut ((tinyScreen_start _ _).draw (.put 0 0 0x41 0xFF0000 colDefault 0) trivial) (List.take_prefix _ _)
    (by decide) rfl

/-- The green character without the reset behind it. -/
def editedCut : Bytes :=
  (flushBytes .true true edited).take 22

theorem edited_cut : ScreenInterrupted (flushFailed .true true edited) (writtenTerm.feed editedCut) :=
  .cut (edited_run (fun _ _ => trivial) True) (List.take_prefix _ _) (by decide) (by decide +kernel)

/-- The bold first cell starts a style of its own, and so does the first cell of a screen that has been resized. -/
theorem screen_recovers_grid :
    ScreenShown (flushDone .true true (flushFailed .true true edited))
      ((writtenTerm.feed editedCut).feed (flushBytes .true true (flushFailed .true true edited))) ∧
    ScreenShown (flushDone .true true grown) ((gridTerm 4 3).feed (flushBytes .true true grown)) := by
  have hresized := @ScreenInterrupted.resize _ _ 4 3 _ (gridTerm 4 3) edited_cut rfl ⟨rfl, rfl, rfl⟩
  have hgrown := hresized.draw (.fill 1 1 3 2 0x23 0x00FF00 colDefault attrBold)
  exact ⟨(screen_recovers edited_cut).mpr (.inl (by decide)), (screen_recovers hgrown).mpr (.inl (by decide))⟩

/-- A plain character that takes the place of the red one is red. -/
theorem screen_keeps_red :
    ScreenInterrupted (screenPut 0 0 0x42 colDefault colDefault 0 (flushFailed .true true tinyRed))
        (tinyTerm.feed tinyCut) ∧
      ¬ScreenShown (flushDone .true true (screenPut 0 0 0x42 colDefault colDefault 0 (flushFailed .true true tinyRed)))
        ((tinyTerm.feed tinyCut).feed (flushBytes .true true
          (screenPut 0 0 0x42 colDefault colDefault 0 (flushFailed .true true tinyRed)))) := by
  refine ⟨tinyRed_cut.draw (.put 0 0 0x42 colDefault colDefault 0), fun h => ?_⟩
  have hcell := h 0 0 (by decide) (by decide)
  revert hcell
  decide

end Recovery

end Qanat
