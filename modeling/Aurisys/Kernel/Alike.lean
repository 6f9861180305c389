import Aurisys.Kernel.Echo

/-!
# Consoles that look alike

The cells, the framebuffer, the cursor and the colours can be seen. `g_used` and `g_cur_x` cannot:
the one says how many rows have been written to, and no others are set to blanks when the display is
cleared. The other one says in which cell the cursor was drawn: until it has moved there is none,
also when the cell has been painted with the cursor in it, and then that cell is not painted again
when the cursor leaves it.

## Main definitions

* `Console.Alike` — what can be seen of two consoles is the same
* `Console.target` — where a sequence puts the cursor
* `Console.Reached` — what holds of the two variables

## Main results

* `Console.run_reached` — what holds of the two variables after any run
* `Console.follows_csiDispatch` — a sequence leaves two consoles alike
-/

namespace Aurisys

open Fallible

namespace Console

variable {d : Display} {s t : Screen} {k k' k₁ k₂ : Console} {e : Escape}
  {c final : UInt8} {x y : ℤ}
  {around : ℤ → ℤ} {fb : Pixels} {I J : Screen → Prop} {a b : (ℤ × ℤ) × ℤ × ℤ}

/-! ## What can be seen -/

/-- What can be seen is the same, and so are the colours that will be used. -/
structure Alike (s t : Screen) : Prop where
  /-- The characters of the cells. -/
  ch : s.ch = t.ch
  /-- Their colours. -/
  fgc : s.fgc = t.fgc
  /-- The column of the cursor. -/
  cx : s.cx = t.cx
  /-- Its row. -/
  cy : s.cy = t.cy
  /-- Whether it is drawn. -/
  cursorOn : s.cursorOn = t.cursorOn
  /-- The colour of the text. -/
  fg : s.fg = t.fg
  /-- The colour of the ground. -/
  bg : s.bg = t.bg
  /-- The pixels. -/
  fb : s.fb = t.fb

/-- What `csi_dispatch` takes for a parameter. -/
def Escape.given (e : Escape) (i : ℤ) : ℤ := if e.param i ≠ 0 then e.param i else 1

/-- Where a command puts the cursor from a cell, before that is kept on the grid. -/
def target (d : Display) (e : Escape) (final : UInt8) (x y : ℤ) : Option (ℤ × ℤ) :=
  match final with
  | 0x41 => some (x, wrap (y - e.given 0))
  | 0x42 => some (x, wrap (y + e.given 0))
  | 0x43 => some (wrap (x + e.given 0), y)
  | 0x44 => some (wrap (x - e.given 0), y)
  | 0x47 => some (wrap (e.given 0 - 1), y)
  | 0x48 | 0x66 => some (wrap (e.given 1 - 1), wrap (e.given 0 - 1))
  | 0x7E =>
    if e.given 0 = 1 then some (0, y)
    else if e.given 0 = 4 then some (cols d - 1, y)
    else if e.given 0 = 5 then some (x, 0)
    else if e.given 0 = 6 then some (x, rows d - 1)
    else none
  | _ => none

/-! ## The two variables over a run -/

/-- If the cursor is drawn it is drawn where it is, or it is in the corner and was not drawn yet. -/
structure Placed (s : Screen) : Prop where
  /-- A cursor that is drawn is where the next byte goes. -/
  on : s.cursorOn = true → (s.curX, s.curY) = (s.cx, s.cy) ∨ s.curX < 0 ∧ (s.cx, s.cy) = (0, 0)
  /-- One that is not drawn has no place. -/
  off : s.cursorOn = false → s.curX < 0

/-- What holds of the two variables. -/
structure Reached (s : Screen) : Prop where
  /-- The cursor is drawn in its place. -/
  placed : Placed s
  /-- One row is counted at least. -/
  used : 1 ≤ s.used

/-- This says something about the two variables that what draws does not change. -/
structure Unseen (I : Screen → Prop) : Prop where
  /-- Pixels do not matter, -/
  fb : ∀ s f, I s → I { s with fb := f }
  /-- nor do cells. -/
  grid : ∀ s f g, I s → I { s with ch := f, fgc := g }

theorem unseen_used (P : ℤ → Prop) : Unseen fun s => P s.used := ⟨fun _ _ => id, fun _ _ _ => id⟩

theorem unseen_placed : Unseen Placed := ⟨fun _ _ h => ⟨h.on, h.off⟩, fun _ _ _ h => ⟨h.on, h.off⟩⟩

namespace Unseen

theorem paint (h : Unseen I) (x y : ℤ) : Keeps I (paint d x y) :=
  .bind .guard fun _ => .modify fun s => h.fb s _

theorem blankRow (h : Unseen I) (y : ℤ) : Keeps I (blankRow d y) :=
  .forM fun _ _ => .bind .guard fun _ => .modify fun s => h.grid s _ _

theorem eraseCell (h : Unseen I) (x y : ℤ) : Keeps I (eraseCell d x y) :=
  .bind .guard fun _ => .bind (.modify fun s => h.grid s _ _) fun _ => h.paint x y

theorem paintRow (h : Unseen I) (lo hi y : ℤ) :
    Keeps I ((between lo hi).forM fun x => Console.paint d x y) :=
  .forM fun x _ => h.paint x y

theorem blankAll (h : Unseen I) : Keeps I (blankAll d) :=
  .bind .get fun _ => .forM fun y _ => h.blankRow y

theorem repaintAll (h : Unseen I) : Keeps I (repaintAll d) :=
  .bind .get fun _ => .forM fun y _ => h.paintRow 0 (cols d) y

end Unseen

/-! ## How many rows have been written to -/

section

variable {P : ℤ → Prop}

theorem used_repaintCursor : Keeps (fun s => P s.used) (repaintCursor d) :=
  .bind .get fun _ => .bind (.ite ((unseen_used P).paint _ _) (.pure _)) fun _ =>
    .ite (.bind ((unseen_used P).paint _ _) fun _ => .modify fun _ => id) (.modify fun _ => id)

theorem used_moveTo (x y : ℤ) : Keeps (fun s => P s.used) (moveTo d x y) :=
  .bind (.modify fun _ => id) fun _ => used_repaintCursor

theorem used_newline : Keeps (fun s => P s.used) (newline d) := by
  refine .bind (.modify fun _ => id) fun _ => .bind .get fun s => .bind (.ite ?_ (.pure _)) fun _ =>
    used_repaintCursor
  refine .bind .get fun _ => .bind (.ite (.bind ((unseen_used P).paint _ _) fun _ => .modify
    fun _ => id) (.pure _))
    fun _ => .bind (.forM fun y _ => .forM fun x _ => ?_) fun _ =>
    .bind (.modify fun _ => id) fun _ => (unseen_used P).blankRow _
  exact .bind .guard fun _ => .bind .guard fun _ => .modify fun _ => id

theorem used_eraseLine (how : ℤ) : Keeps (fun s => P s.used) (eraseLine d how) :=
  .bind .get fun _ => .bind (.forM fun _ _ => (unseen_used P).eraseCell _ _) fun _ =>
    used_repaintCursor

theorem used_clear (h : P 1) : Keeps (fun s => P s.used) (clear d) :=
  .bind (unseen_used P).blankAll fun _ => .bind (.modify fun _ _ => h) fun _ => used_repaintCursor

theorem used_eraseDisplay (h : P 1) (how : ℤ) : Keeps (fun s => P s.used) (eraseDisplay d how) := by
  have hP := unseen_used P
  refine .bind .get fun s => .ite (used_clear h) (.ite ?_ ?_)
  · exact .bind (.forM fun y _ => hP.blankRow y) fun _ => .bind (hP.blankRow _) fun _ =>
      .bind (hP.paintRow _ _ _) fun _ => .bind (.forM fun y _ => hP.paintRow _ _ y) fun _ =>
        used_repaintCursor
  · exact .bind (hP.paintRow _ _ _) fun _ =>
      .bind (.forM fun y _ => .bind (hP.blankRow y) fun _ => hP.paintRow _ _ y) fun _ =>
        used_repaintCursor

theorem used_cursorVisible (on : Bool) : Keeps (fun s => P s.used) (cursorVisible d on) :=
  .bind .get fun _ => .ite (.pure _) (.bind (.modify fun _ => id) fun _ => used_repaintCursor)

theorem used_setcolor (fg bg : UInt32) : Keeps (fun s => P s.used) (setcolor d fg bg) :=
  .bind (.modify fun _ => id) fun _ => (unseen_used P).repaintAll

theorem used_csiDispatch (h : P 1) (e : Escape) (final : UInt8) :
    Keeps (fun s => P s.used) (csiDispatch d e final) := by
  refine .ite (.bind (.bind .get fun _ => .bind (.modify fun _ => id) fun _ => .pure _)
    fun _ => .pure _)
    (.bind (.bind .get fun s => ?_) fun _ => .pure _)
  split
  case h_8 => exact used_eraseDisplay h _
  case h_9 => exact used_eraseLine _
  case h_10 => exact .ite (used_cursorVisible true) (.pure _)
  case h_11 => exact .ite (used_cursorVisible false) (.pure _)
  case h_12 =>
    exact .ite (used_moveTo _ _) (.ite (used_moveTo _ _) (.ite (used_moveTo _ _)
      (.ite (used_moveTo _ _) (.pure _))))
  case h_13 => exact .pure _
  all_goals exact used_moveTo _ _

end

theorem used_draw (c : UInt8) : Keeps (fun s => 1 ≤ s.used) (draw d c) := by
  refine .bind .get fun s => .bind .guard fun _ => .bind (.modify fun t ht => ?_) fun _ =>
    .bind ((unseen_used (1 ≤ ·)).paint _ _) fun _ => .bind (.modify fun _ => id) fun _ =>
      .bind .get fun _ =>
    .ite (.bind (.modify fun _ => id) fun _ => .bind .get fun _ => .ite
      used_newline used_repaintCursor)
      used_repaintCursor
  show 1 ≤ if t.used < t.cy + 1 then t.cy + 1 else t.used
  split <;> omega

theorem used_plain (c : UInt8) : Keeps (fun s => 1 ≤ s.used) (plain d c) :=
  .bind .get fun _ => .ite used_newline (.ite (used_moveTo _ _)
    (.ite (.bind (used_moveTo _ _) fun _ => used_draw c)
      (.ite (.bind (.modify fun _ => id) fun _ => .bind .get fun _ =>
      .bind ((unseen_used (1 ≤ ·)).eraseCell _ _) fun _ => used_draw c) (used_draw c))))

/-! ## Where the cursor is drawn -/

/-- **`repaint_cursor`** draws the cursor where it is, whatever was before. -/
theorem ends_repaintCursor : Ends (fun _ => True) (repaintCursor d) Placed := by
  have hon : ∀ b, Unseen fun t => t.cursorOn = b := fun b => ⟨fun _ _ => id, fun _ _ _ => id⟩
  refine .get_bind fun s _ => .bind (R := fun t => t.cursorOn = s.cursorOn)
    (.ite (fun _ => ?_) fun _ => ?_) fun _ =>
    .ite (fun hs => .bind ((hon _).paint _ _).ends fun _ => .modify fun t ht => ?_) fun hs =>
      .modify fun t ht => ?_
  · exact ((hon _).paint _ _).ends.mono (fun t ht => congrArg Screen.cursorOn ht) fun _ => id
  · exact (Keeps.pure ()).ends.mono (fun t ht => congrArg Screen.cursorOn ht) fun _ => id
  · exact ⟨fun _ => .inl rfl, fun hoff => absurd ((ht.trans hs).symm.trans hoff) (by decide)⟩
  · exact ⟨fun h => absurd (ht.symm.trans h) hs, fun _ => show (-1 : ℤ) < 0 by decide⟩

theorem ends_moveTo (x y : ℤ) : Ends (fun _ => True) (moveTo d x y) Placed :=
  .last fun _ => ends_repaintCursor

theorem ends_newline : Ends (fun _ => True) (newline d) Placed :=
  .last fun _ => .last fun _ => .last fun _ => ends_repaintCursor

theorem ends_draw (c : UInt8) : Ends (fun _ => True) (draw d c) Placed :=
  .last fun _ => .last fun _ => .last fun _ => .last fun _ => .last fun _ => .last fun _ =>
    .ite (fun _ => .last fun _ => .last fun _ => .ite (fun _ => ends_newline)
      fun _ => ends_repaintCursor)
      fun _ => ends_repaintCursor

theorem ends_plain (c : UInt8) : Ends (fun _ => True) (plain d c) Placed :=
  .last fun _ => .ite (fun _ => ends_newline) fun _ => .ite (fun _ => ends_moveTo _ _) fun _ =>
    .ite (fun _ => .last fun _ => ends_draw c) fun _ =>
    .ite (fun _ => .last fun _ => .last fun _ => .last fun _ => ends_draw c) fun _ => ends_draw c

theorem ends_clear : Ends (fun _ => True) (clear d) Placed :=
  .last fun _ => .last fun _ => ends_repaintCursor

theorem ends_eraseDisplay (how : ℤ) : Ends (fun _ => True) (eraseDisplay d how) Placed :=
  .last fun _ => .ite (fun _ => ends_clear) fun _ =>
    .ite (fun _ => .last fun _ => .last fun _ => .last fun _ => .last fun _ => ends_repaintCursor)
      fun _ => .last fun _ => .last fun _ => ends_repaintCursor

theorem ends_cursorVisible (on : Bool) : Ends Placed (cursorVisible d on) Placed :=
  .get_bind fun _ hs => .ite (fun _ => (Keeps.pure ()).ends.mono (fun _ ht => ht ▸ hs)
    fun _ => id) fun _ =>
    .last fun _ => ends_repaintCursor

theorem ends_csiDispatch (e : Escape) (final : UInt8) :
    Ends Placed (csiDispatch d e final) Placed := by
  have hnone : Ends Placed (pure () : Draw Unit) Placed := (Keeps.pure ()).ends
  have hmove : ∀ x y, Ends Placed (moveTo d x y) Placed :=
    fun x y => (ends_moveTo x y).mono (fun _ _ => trivial)
    fun _ => id
  refine .ite (fun _ => ?_) fun _ => .bind (.get_bind fun s hs => Ends.mono (P := Placed) ?_
    (fun t ht => ht ▸ hs)
    fun _ => id) fun _ => (Keeps.pure _).ends
  · exact (Keeps.bind (.bind .get fun _ => .bind (.modify fun _ h => ⟨h.on, h.off⟩)
      fun _ => .pure _) fun _ =>
      .pure _).ends
  · split
    case h_8 => exact (ends_eraseDisplay _).mono (fun _ _ => trivial) fun _ => id
    case h_9 => exact .last fun _ => .last fun _ => ends_repaintCursor
    case h_10 => exact .ite (fun _ => ends_cursorVisible true) fun _ => hnone
    case h_11 => exact .ite (fun _ => ends_cursorVisible false) fun _ => hnone
    case h_12 =>
      exact .ite (fun _ => hmove _ _) fun _ => .ite (fun _ => hmove _ _) fun _ =>
        .ite (fun _ => hmove _ _) fun _ =>
        .ite (fun _ => hmove _ _) fun _ => hnone
    case h_13 => exact hnone
    all_goals exact hmove _ _

/-! ## Any run -/

theorem reached_of {α : Type} {z : Draw α} {r : α} (hplaced : Ends Placed z Placed)
    (hused : Keeps (fun s => 1 ≤ s.used) z) (hs : Reached s) (hz : z.result s = some (r, t)) :
    Reached t := by
  have hrun := exec_of_result hz
  exact ⟨wp_of_some (hplaced s hs.placed) hrun, wp_of_some (Q := fun _ t => 1 ≤ t.used)
    (hused s hs.used) hrun⟩

theorem reached_onScreen {z : Draw Unit} (hplaced : Ends Placed z Placed)
    (hused : Keeps (fun s => 1 ≤ s.used) z)
    (hk : Reached k.screen) (hz : onScreen z k = some k') : Reached k'.screen := by
  obtain ⟨⟨r, s⟩, hrun, rfl⟩ := Option.map_eq_some_iff.mp hz
  exact reached_of hplaced hused hk hrun

theorem reached_putchar (hk : Reached k.screen) (hput : putchar d c k = some k') :
    Reached k'.screen := by
  rw [putchar, escape] at hput
  split at hput
  · split at hput
    case h_1 =>
      obtain rfl := Option.some.inj hput
      exact hk
    case h_3 =>
      split_ifs at hput
      · obtain rfl := Option.some.inj hput
        exact hk
      · obtain rfl := Option.some.inj hput
        exact hk
      · obtain rfl := Option.some.inj hput
        exact hk
      · obtain ⟨⟨looked, t⟩, hrun, rfl⟩ := Option.map_eq_some_iff.mp hput
        exact reached_of (ends_csiDispatch _ _) (used_csiDispatch le_rfl _ _) hk hrun
      · obtain rfl := Option.some.inj hput
        exact hk
      · obtain rfl := Option.some.inj hput
        exact hk
    all_goals
      split_ifs at hput <;> obtain rfl := Option.some.inj hput
      all_goals exact hk
  · split at hput
    · obtain rfl := Option.some.inj hput
      exact hk
    · exact reached_onScreen ((ends_plain c).mono (fun _ _ => trivial) fun _ => id)
        (used_plain c) hk hput

theorem reached_puts (l : List UInt8) (hk : Reached k.screen) (hputs : puts d l k = some k') :
    Reached k'.screen := by
  induction l generalizing k with
  | nil =>
    obtain rfl := Option.some.inj hputs
    exact hk
  | cons c l ih =>
    rw [puts, List.foldlM_cons] at hputs
    obtain ⟨k₁, hput, hrest⟩ := Option.bind_eq_some_iff.mp hputs
    exact ih (reached_putchar hk hput) hrest

theorem reached_init {note : List UInt8} (hk : Reached k.screen) (hinit : init d note k = some k') :
    Reached k'.screen := by
  have hblank : ∀ k₁ : Console, Reached k₁.screen → onScreen (blankAll d) k₁.reset = some k' →
      Reached k'.screen := by
    intro k₁ hk₁ hrun
    have hreset : Reached k₁.reset.screen :=
      ⟨⟨fun _ => .inr ⟨show (-1 : ℤ) < 0 by decide, rfl⟩,
        fun h => absurd (show true = false from h) (by decide)⟩,
        hk₁.used⟩
    exact reached_onScreen unseen_placed.blankAll.ends (unseen_used (1 ≤ ·)).blankAll hreset hrun
  let start : Console := ⟨{ k.screen with fg := kDefaultFg, bg := kDefaultBg }, k.esc⟩
  have hstart : Reached start.screen := ⟨⟨hk.placed.on, hk.placed.off⟩, hk.used⟩
  rw [init] at hinit
  split at hinit
  · obtain ⟨k₁, hnote, hrun⟩ := Option.bind_eq_some_iff.mp hinit
    exact hblank k₁ (reached_puts note hstart hnote) hrun
  · exact hblank start hstart hinit

theorem reached_step {ev : Event} (hk : Reached k.screen) (hstep : step d ev k = some k') :
    Reached k'.screen := by
  have hfrom : ∀ {z : Draw Unit}, Ends (fun _ => True) z Placed → Ends Placed z Placed := fun h =>
    h.mono (fun _ _ => trivial) fun _ => id
  cases ev with
  | putchar c => exact reached_putchar hk hstep
  | init note => exact reached_init hk hstep
  | setcolor fg bg =>
    refine reached_onScreen (Keeps.ends ?_) (used_setcolor fg bg) hk hstep
    exact .bind (.modify fun _ h => ⟨h.on, h.off⟩) fun _ => unseen_placed.repaintAll
  | cursorVisible on =>
    exact reached_onScreen (ends_cursorVisible on) (used_cursorVisible on) hk hstep
  | clear => exact reached_onScreen (hfrom ends_clear) (used_clear le_rfl) hk hstep
  | gotoxy x y => exact reached_onScreen (hfrom (ends_moveTo x y)) (used_moveTo x y) hk hstep

/-- **After any run** the cursor is drawn where it is, or it is in the corner and was not drawn
yet. -/
theorem run_reached (es : List Event) (hk : Reached k.screen) (hrun : run d es k = some k') :
    Reached k'.screen := by
  induction es generalizing k with
  | nil =>
    obtain rfl := Option.some.inj hrun
    exact hk
  | cons ev es ih =>
    rw [run, List.foldlM_cons] at hrun
    obtain ⟨k₁, hstep, hrest⟩ := Option.bind_eq_some_iff.mp hrun
    exact ih (reached_step hk hstep) hrest

theorem reached_powerOn : Reached (powerOn around fb).screen :=
  ⟨⟨fun _ => .inr ⟨show (-1 : ℤ) < 0 by decide, rfl⟩, fun h => absurd (show true = false from h)
    (by decide)⟩, le_rfl⟩

/-! ## Two consoles that look alike -/

/-- The block is not drawn, or it is drawn under the cursor. -/
def Quiet (a : (ℤ × ℤ) × ℤ × ℤ) : Prop := a.2.1 < 0 ∨ a.2 = a.1

theorem Placed.quiet (h : Placed s) : Quiet s.spot := by
  cases hon : s.cursorOn with
  | true => exact (h.on hon).symm.imp_left And.left
  | false => exact .inl (h.off hon)

/-- The two look alike, and this is where their cursors are and where they are drawn. -/
structure AlikeAt (a b : (ℤ × ℤ) × ℤ × ℤ) (s t : Screen) : Prop where
  /-- They look alike. -/
  alike : Alike s t
  /-- The one has its cursors here, -/
  left : s.spot = a
  /-- and the other there. -/
  right : t.spot = b

theorem Alike.painted (h : Alike s t) (x y : ℤ) : Alike (s.painted d x y) (t.painted d x y) := by
  refine ⟨h.ch, h.fgc, h.cx, h.cy, h.cursorOn, h.fg, h.bg, ?_⟩
  simp only [Screen.painted, h.ch, h.fgc, h.cx, h.cy, h.cursorOn, h.fg, h.bg, h.fb]

theorem Alike.blanked (h : Alike s t) (x y : ℤ) : Alike (s.blanked x y) (t.blanked x y) :=
  ⟨by simp only [Screen.blanked, h.ch], by simp only [Screen.blanked, h.fgc, h.fg], h.cx, h.cy,
    h.cursorOn, h.fg, h.bg,
    h.fb⟩

theorem follows_paint (x y : ℤ) : Follows (AlikeAt a b) (paint d x y) (paint d x y) (AlikeAt a b) :=
  .bind .guard fun _ => .modify fun _ _ h => ⟨h.alike.painted x y, h.left, h.right⟩

theorem follows_blankRow (y : ℤ) : Follows (AlikeAt a b) (blankRow d y)
    (blankRow d y) (AlikeAt a b) :=
  .forM fun x _ => .bind .guard fun _ => .modify fun _ _ h => ⟨h.alike.blanked x y, h.left, h.right⟩

theorem follows_eraseCell (x y : ℤ) : Follows (AlikeAt a b) (eraseCell d x y)
    (eraseCell d x y) (AlikeAt a b) :=
  .bind .guard fun _ => .bind (.modify fun _ _ h => ⟨h.alike.blanked x y, h.left, h.right⟩) fun _ =>
    follows_paint x y

theorem follows_paintRow (lo hi y : ℤ) : Follows (AlikeAt a b)
    ((between lo hi).forM fun x => paint d x y)
    ((between lo hi).forM fun x => paint d x y) (AlikeAt a b) := .forM fun x _ => follows_paint x y

/-- **`repaint_cursor`** leaves two consoles alike if the same cell was drawn as the cursor, or none
that is not the cursor. -/
theorem follows_repaintCursor (h : a.2 = b.2 ∨ Quiet a ∧ Quiet b) :
    Follows (AlikeAt a b) (repaintCursor d) (repaintCursor d) Alike := by
  refine .get_bind fun s t hst => .bind (M := AlikeAt a b) ?_ fun _ => ?_
  · have hstart : ∀ s' t', s' = s ∧ t' = t → AlikeAt a b s' t' := by
      rintro s' t' ⟨rfl, rfl⟩
      exact hst
    have hcell : (s.cx, s.cy) = (t.cx, t.cy) := Prod.ext hst.alike.cx hst.alike.cy
    rcases h with hsame | ⟨hs, ht⟩
    · have hblock : (s.curX, s.curY) = (t.curX, t.curY) :=
        (congrArg Prod.snd hst.left).trans (hsame.trans (congrArg Prod.snd hst.right).symm)
      obtain ⟨hx, hy⟩ := Prod.mk.inj hblock
      obtain ⟨hcx, hcy⟩ := Prod.mk.inj hcell
      rw [← hx, ← hy, ← hcx, ← hcy]
      exact .ite Iff.rfl (fun _ => (follows_paint _ _).mono hstart fun _ _ => id)
        fun _ => .pure hstart
    · have hno : ∀ u : Screen, Quiet u.spot → ¬(0 ≤ u.curX ∧ (u.curX ≠ u.cx ∨ u.curY ≠ u.cy)) := by
        rintro u (hu | hu) ⟨hpos, hne⟩
        · exact absurd hpos (not_le.mpr hu)
        · obtain ⟨hx, hy⟩ := Prod.mk.inj (show (u.curX, u.curY) = (u.cx, u.cy) from hu)
          exact hne.elim (absurd hx) (absurd hy)
      rw [if_neg (hno s (hst.left ▸ hs)), if_neg (hno t (hst.right ▸ ht))]
      exact .pure hstart
  · rw [← hst.alike.cx, ← hst.alike.cy, ← hst.alike.cursorOn]
    have hset : ∀ (f : Screen → ℤ × ℤ) s' t', AlikeAt a b s' t' →
        Alike { s' with curX := (f s').1, curY := (f s').2 }
        { t' with curX := (f t').1, curY := (f t').2 } :=
      fun f s' t' h' => ⟨h'.alike.ch, h'.alike.fgc, h'.alike.cx, h'.alike.cy,
        h'.alike.cursorOn, h'.alike.fg,
        h'.alike.bg, h'.alike.fb⟩
    exact .ite Iff.rfl (fun _ => .bind (follows_paint _ _) fun _ => .modify
      (hset fun u => (u.cx, u.cy)))
      fun _ => .modify (hset fun u => (-1, u.curY))

/-- Where the cursor goes from the corner to the corner, or was drawn already, no block is left
behind by one of two consoles only. -/
theorem same_or_quiet (h : Alike s t) (hs : Placed s) (ht : Placed t) {p : ℤ × ℤ}
    (hp : (s.cx, s.cy) = (0, 0) → p = (0, 0)) : (s.curX, s.curY) = (t.curX, t.curY) ∨
      Quiet (p, s.curX, s.curY) ∧ Quiet (p, t.curX, t.curY) := by
  have hcell : (s.cx, s.cy) = (t.cx, t.cy) := Prod.ext h.cx h.cy
  cases hon : s.cursorOn with
  | false => exact .inr ⟨.inl (hs.off hon), .inl (ht.off (h.cursorOn ▸ hon))⟩
  | true =>
    rcases hs.on hon with hblock | ⟨hneg, hcorner⟩
    · rcases ht.on (h.cursorOn ▸ hon) with hblock' | ⟨hneg', hcorner'⟩
      · exact .inl (hblock.trans (hcell.trans hblock'.symm))
      · have hcorner := hcell.trans hcorner'
        exact .inr ⟨.inr ((hblock.trans hcorner).trans (hp hcorner).symm), .inl hneg'⟩
    · rcases ht.on (h.cursorOn ▸ hon) with hblock' | ⟨hneg', -⟩
      · exact .inr ⟨.inl hneg,
          .inr ((hblock'.trans (hcell.symm.trans hcorner)).trans (hp hcorner).symm)⟩
      · exact .inr ⟨.inl hneg, .inl hneg'⟩

/-- `move_to`, for one that does not take the cursor away from the corner. -/
theorem follows_moveTo (h : Alike s t) (hs : Placed s) (ht : Placed t)
    (hp : s.cx = 0 → s.cy = 0 → clampx d x = 0 ∧ clampy d y = 0) :
    Follows (fun s' t' => s' = s ∧ t' = t) (moveTo d x y) (moveTo d x y) Alike := by
  refine .bind (M := AlikeAt ((clampx d x, clampy d y), s.curX, s.curY) ((clampx d x, clampy d y),
    t.curX, t.curY))
    (.modify ?_) fun _ => follows_repaintCursor (same_or_quiet h hs ht fun hcorner => ?_)
  · rintro s' t' ⟨rfl, rfl⟩
    exact ⟨⟨h.ch, h.fgc, rfl, rfl, h.cursorOn, h.fg, h.bg, h.fb⟩, rfl, rfl⟩
  · obtain ⟨hx, hy⟩ := Prod.mk.inj hcorner
    exact Prod.ext (hp hx hy).1 (hp hx hy).2

/-- `clear`, where the one row has been used. -/
theorem follows_clear (hone : rows d = 1) (h : Alike s t) (hs : Reached s) (ht : Reached t) :
    Follows (fun s' t' => s' = s ∧ t' = t) (clear d) (clear d) Alike := by
  have hrows : ∀ u : Screen, Reached u → u.usedRows d = 1 := by
    intro u hu
    rw [Screen.usedRows, hone]
    split
    · rfl
    · exact le_antisymm (not_lt.mp ‹_›) hu.used
  have hblank : Follows (fun s' t' => s' = s ∧ t' = t) (blankAll d) (blankAll d)
      (AlikeAt s.spot t.spot) := by
    refine .get_bind fun s' t' hst => ?_
    obtain ⟨rfl, rfl⟩ := hst
    rw [hrows s' hs, hrows t' ht]
    refine Follows.mono (.forM fun y _ => follows_blankRow y) ?_ fun _ _ => id
    rintro u v ⟨rfl, rfl⟩
    exact ⟨h, rfl, rfl⟩
  refine .bind hblank fun _ => .bind (M := AlikeAt ((0, 0), s.curX,
    s.curY) ((0, 0), t.curX, t.curY))
    (.modify fun u v huv => ?_) fun _ => follows_repaintCursor (same_or_quiet h hs.placed
      ht.placed fun _ => rfl)
  refine ⟨⟨huv.alike.ch, huv.alike.fgc, rfl, rfl, huv.alike.cursorOn, huv.alike.fg,
    huv.alike.bg, ?_⟩, ?_, ?_⟩
  · simp only [huv.alike.bg, huv.alike.fb]
  · exact Prod.ext rfl (congrArg Prod.snd huv.left : (u.curX, u.curY) = _)
  · exact Prod.ext rfl (congrArg Prod.snd huv.right : (v.curX, v.curY) = _)

/-- The cursor stays where it is. -/
theorem follows_settle (hs : Placed s) (ht : Placed t) :
    Follows (AlikeAt s.spot t.spot) (repaintCursor d) (repaintCursor d) Alike :=
  follows_repaintCursor (.inr ⟨hs.quiet, ht.quiet⟩)

theorem follows_eraseLine (how : ℤ) (h : Alike s t) (hs : Placed s) (ht : Placed t) :
    Follows (fun s' t' => s' = s ∧ t' = t) (eraseLine d how) (eraseLine d how) Alike := by
  refine .get_bind fun s' t' hst => ?_
  obtain ⟨rfl, rfl⟩ := hst
  rw [← h.cx, ← h.cy]
  refine .bind (M := AlikeAt s'.spot t'.spot) (Follows.mono (.forM fun x _ => follows_eraseCell x _)
    ?_ fun _ _ => id)
    fun _ => follows_settle hs ht
  rintro u v ⟨rfl, rfl⟩
  exact ⟨h, rfl, rfl⟩

theorem follows_eraseDisplay {how : ℤ} (hhow : how = 2 ∨ how = 3 → rows d = 1)
    (h : Alike s t) (hs : Reached s)
    (ht : Reached t) : Follows (fun s' t' => s' = s ∧ t' = t) (eraseDisplay d how)
    (eraseDisplay d how) Alike := by
  refine .get_bind fun s' t' hst => ?_
  obtain ⟨rfl, rfl⟩ := hst
  rw [← h.cx, ← h.cy]
  have hstart : ∀ u v, u = s' ∧ v = t' → AlikeAt s'.spot t'.spot u v := by
    rintro u v ⟨rfl, rfl⟩
    exact ⟨h, rfl, rfl⟩
  refine .ite Iff.rfl (fun hclear => follows_clear (hhow hclear) h hs ht) fun _ =>
    Follows.mono (.ite Iff.rfl (fun _ => ?_) fun _ => ?_) hstart fun _ _ => id
  · exact .bind (.forM fun y _ => follows_blankRow y) fun _ => .bind (follows_blankRow _) fun _ =>
      .bind (follows_paintRow _ _ _) fun _ =>
        .bind (.forM fun y _ => follows_paintRow _ _ y) fun _ =>
      follows_settle hs.placed ht.placed
  · exact .bind (follows_paintRow _ _ _) fun _ =>
      .bind (.forM fun y _ => .bind (follows_blankRow y) fun _ => follows_paintRow _ _ y) fun _ =>
      follows_settle hs.placed ht.placed

theorem follows_cursorVisible (on : Bool) (h : Alike s t) (hs : Placed s) (ht : Placed t) :
    Follows (fun s' t' => s' = s ∧ t' = t) (cursorVisible d on) (cursorVisible d on) Alike := by
  refine .get_bind fun s' t' hst => ?_
  obtain ⟨rfl, rfl⟩ := hst
  rw [← h.cursorOn]
  refine .ite Iff.rfl (fun _ => .pure ?_) fun _ => .bind (M := AlikeAt s'.spot t'.spot)
    (.modify ?_) fun _ =>
    follows_settle hs ht
  · rintro u v ⟨rfl, rfl⟩
    exact h
  · rintro u v ⟨rfl, rfl⟩
    exact ⟨⟨h.ch, h.fgc, h.cx, h.cy, rfl, h.fg, h.bg, h.fb⟩, rfl, rfl⟩

theorem follows_sgr (e : Escape) (h : Alike s t) :
    Follows (fun s' t' => s' = s ∧ t' = t) (sgr e) (sgr e) Alike := by
  refine .get_bind fun s' t' hst => ?_
  obtain ⟨rfl, rfl⟩ := hst
  rw [← h.fg, ← h.bg]
  refine .bind (M := Alike) (.modify ?_) fun _ => .pure fun _ _ => id
  rintro u v ⟨rfl, rfl⟩
  exact ⟨h.ch, h.fgc, h.cx, h.cy, h.cursorOn, rfl, rfl, h.fb⟩

/-- **A sequence leaves two consoles alike** if it does not clear more than a row and does not take
the cursor away from the corner. -/
theorem follows_csiDispatch (hclear : final = 0x4A → e.param 0 = 2 ∨ e.param 0 = 3 → rows d = 1)
    (hstay : ∀ p, target d e final 0 0 = some p → clampx d p.1 = 0 ∧ clampy d p.2 = 0)
    (h : Alike s t)
    (hs : Reached s) (ht : Reached t) :
    Follows (fun s' t' => s' = s ∧ t' = t) (csiDispatch d e final)
      (csiDispatch d e final) Alike := by
  have hnone : Follows (fun s' t' => s' = s ∧ t' = t) (pure () : Draw Unit) (pure ()) Alike := by
    refine .pure ?_
    rintro u v ⟨rfl, rfl⟩
    exact h
  refine .ite Iff.rfl (fun _ => .bind (follows_sgr e h) fun _ => .pure fun _ _ => id) fun _ =>
    .bind (.get_bind fun s' t' hst => ?_) fun _ => .pure fun _ _ => id
  obtain ⟨rfl, rfl⟩ := hst
  rw [← h.cx, ← h.cy]
  have hmove : ∀ {p : ℤ → ℤ → ℤ × ℤ}, target d e final 0 0 = some (p 0 0) →
      Follows (fun u v => u = s' ∧ v = t') (moveTo d (p s'.cx s'.cy).1 (p s'.cx s'.cy).2)
        (moveTo d (p s'.cx s'.cy).1 (p s'.cx s'.cy).2) Alike := by
    intro p hp
    refine follows_moveTo h hs.placed ht.placed fun hx hy => ?_
    rw [hx, hy]
    exact hstay _ hp
  split
  case h_1 => exact hmove (p := fun x y => (x, wrap (y - e.given 0))) rfl
  case h_2 => exact hmove (p := fun x y => (x, wrap (y + e.given 0))) rfl
  case h_3 => exact hmove (p := fun x y => (wrap (x + e.given 0), y)) rfl
  case h_4 => exact hmove (p := fun x y => (wrap (x - e.given 0), y)) rfl
  case h_5 => exact hmove (p := fun _ y => (wrap (e.given 0 - 1), y)) rfl
  case h_6 => exact hmove (p := fun _ _ => (wrap (e.given 1 - 1), wrap (e.given 0 - 1))) rfl
  case h_7 => exact hmove (p := fun _ _ => (wrap (e.given 1 - 1), wrap (e.given 0 - 1))) rfl
  case h_8 =>
    refine follows_eraseDisplay (fun hhow => hclear rfl ?_) h hs ht
    by_cases h0 : e.param 0 = 0
    · rw [h0] at hhow
      exact absurd hhow (by decide)
    · rwa [if_pos h0] at hhow
  case h_9 => exact follows_eraseLine _ h hs.placed ht.placed
  case h_10 =>
    exact .ite Iff.rfl (fun _ => follows_cursorVisible true h hs.placed ht.placed) fun _ => hnone
  case h_11 =>
    exact .ite Iff.rfl (fun _ => follows_cursorVisible false h hs.placed ht.placed) fun _ => hnone
  case h_12 =>
    have htarget : target d e 0x7E 0 0 = if e.given 0 = 1 then some (0, 0)
      else if e.given 0 = 4 then
      some (cols d - 1, 0) else if e.given 0 = 5 then some (0, 0)
        else if e.given 0 = 6 then some (0, rows d - 1)
        else none := rfl
    refine .ite Iff.rfl (fun (h1 : e.given 0 = 1) => hmove (p := fun _ y => (0, y)) ?_)
      fun (h1 : ¬e.given 0 = 1) =>
      .ite Iff.rfl (fun (h4 : e.given 0 = 4) => hmove (p := fun _ y => (cols d - 1, y)) ?_)
        fun (h4 : ¬e.given 0 = 4) =>
      .ite Iff.rfl (fun (h5 : e.given 0 = 5) => hmove (p := fun x _ => (x, 0)) ?_)
        fun (h5 : ¬e.given 0 = 5) =>
      .ite Iff.rfl (fun (h6 : e.given 0 = 6) => hmove (p := fun x _ => (x, rows d - 1)) ?_)
        fun _ => hnone
    · rw [htarget, if_pos h1]
    · rw [htarget, if_neg h1, if_pos h4]
    · rw [htarget, if_neg h1, if_neg h4, if_pos h5]
    · rw [htarget, if_neg h1, if_neg h4, if_neg h5, if_pos h6]
  case h_13 => exact hnone

end Console

end Aurisys
