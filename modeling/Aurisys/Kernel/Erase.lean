import Aurisys.Kernel.Sequence

/-!
# Erasing

The cells of a line or of the display are set to blanks and drawn. What should become of the screen
is said cell by cell: the cells of a region are blanks, in the grid and on the framebuffer, and then
the cursor is drawn.

`csi_dispatch` takes a parameter that is zero for a one, so what should erase from the cursor to the
end erases from the start to the cursor. And `erase_display` sets the whole row of the cursor to
blanks in the grid, where it draws no more than what is to the left of the cursor.

## Main definitions

* `Console.Screen.drawn` — some cells are blanks in the grid, and some are drawn
* `Console.EraseCmd`, `Console.EraseCmd.region` — the commands, and what each should erase
* `Console.Erases` — it does
* `Console.EraseCmd.Spared` — what it should not have erased was blank before

## Main results

* `Console.sure_eraseLine_drawn`, `Console.sure_eraseDisplay_drawn` — what the code does
* `Console.erases_iff`
-/

namespace Aurisys

open Fallible

namespace Console

variable {d : Display} {s t : Screen} {k : Console} {x y lo hi : ℤ} {G P R : ℤ → ℤ → Bool}

/-! ## Loops over the cells -/

theorem between_eq_nil (h : hi ≤ lo) : between lo hi = [] := by
  refine List.eq_nil_iff_forall_not_mem.mpr fun z hz => ?_
  have := mem_between.mp hz
  omega

theorem between_cons (h : lo < hi) : between lo hi = lo :: between (lo + 1) hi := by
  unfold between
  have hlen : (hi - lo).toNat = (hi - (lo + 1)).toNat + 1 := by omega
  rw [Int.range, Int.range, hlen, List.range_succ_eq_map, List.map_cons, List.map_map]
  congr 1
  · exact Int.add_zero lo
  · refine List.map_congr_left fun r _ => ?_
    show lo + ((r + 1 : ℕ) : ℤ) = lo + 1 + r
    push_cast
    omega

/-- **A loop that keeps an invariant which goes along with the counter.** -/
theorem sure_between {I : ℤ → Screen → Prop} {f : ℤ → Draw Unit} (hle : lo ≤ hi)
    (h : ∀ i, lo ≤ i → i < hi → Sure (I i) (f i) (I (i + 1))) :
    Sure (I lo) ((between lo hi).forM f) (I hi) := by
  obtain ⟨n, hn⟩ : ∃ n : ℕ, hi - lo = n := ⟨(hi - lo).toNat, by omega⟩
  induction n generalizing lo with
  | zero =>
    obtain rfl : lo = hi := by omega
    rw [between_eq_nil le_rfl]
    exact .pure fun _ => id
  | succ n ih =>
    have hlt : lo < hi := by omega
    rw [between_cons hlt]
    exact .bind (h lo le_rfl hlt) fun _ => ih (by omega) (fun i hi => h i (by omega)) (by omega)

/-! ## The pixels of a cell -/

/-- What is drawn at a pixel: the character of its cell, and the cursor. -/
def Screen.pixel (d : Display) (s : Screen) (r c : ℤ) : UInt32 :=
  if s.cursorOn ∧ c / 8 = s.cx ∧ r / 16 = s.cy ∧ 13 ≤ r % 16 then s.fg
  else if d.glyph (s.ch (r / 16) (c / 8)) (r % 16).toNat &&& (0x80 >>> UInt8.ofNat
    (c % 8).toNat) ≠ 0 then
    s.fgc (r / 16) (c / 8)
  else s.bg

/-- A cell of the grid is in the framebuffer. -/
theorem InGrid.pixels (h : InGrid d x y) : (x + 1) * 8 ≤ d.width ∧ (y + 1) * 16 ≤ d.height := by
  obtain ⟨⟨_, hx⟩, _, hy⟩ := h
  have hc : cols d ≤ (d.width / 8 : ℕ) := by
    rw [cols]
    split <;> omega
  have hr : rows d ≤ (d.height / 16 : ℕ) := by
    rw [rows]
    split <;> omega
  omega

/-- **`paint`** draws the pixels of one cell. -/
theorem painted_fb (h : InGrid d x y) (s : Screen) (r c : ℤ) : (s.painted d x y).fb r c =
    if r / 16 = y ∧ c / 8 = x then s.pixel d r c else s.fb r c := by
  have hpix := h.pixels
  obtain ⟨⟨hx, _⟩, hy, _⟩ := h
  have hcell : ((y * 16 ≤ r ∧ r < y * 16 + 16) ∧ x * 8 ≤ c ∧ c < x * 8 + 8 ∧ 0 ≤ c ∧ c < d.width) ↔
      r / 16 = y ∧ c / 8 = x := by omega
  have hbar : ((y * 16 + 13 ≤ r ∧ r < y * 16 + 13 + 3 ∧ 0 ≤ r ∧ r < d.height) ∧
    x * 8 ≤ c ∧ c < x * 8 + 8 ∧
      0 ≤ c ∧ c < d.width) ↔ (r / 16 = y ∧ c / 8 = x) ∧ 13 ≤ r % 16 := by omega
  rw [Screen.painted]
  simp only []
  by_cases hrc : r / 16 = y ∧ c / 8 = x
  · obtain ⟨rfl, rfl⟩ := hrc
    have hr : (r - r / 16 * 16).toNat = (r % 16).toNat := by omega
    have hc : (c - c / 8 * 8).toNat = (c % 8).toNat := by omega
    have hself : r / 16 = r / 16 ∧ c / 8 = c / 8 := ⟨rfl, rfl⟩
    rw [if_pos hself, Screen.pixel]
    by_cases hcur : s.cursorOn ∧ c / 8 = s.cx ∧ r / 16 = s.cy
    · rw [if_pos hcur, fillRect, drawchar]
      simp only [hbar, hcell, and_self, true_and, if_true, hr, hc]
      by_cases h13 : 13 ≤ r % 16
      · rw [if_pos h13, if_pos ⟨hcur.1, hcur.2.1, hcur.2.2, h13⟩]
      · have hno : ¬ (s.cursorOn ∧ c / 8 = s.cx ∧ r / 16 = s.cy ∧ 13 ≤ r % 16) :=
          fun h => h13 h.2.2.2
        rw [if_neg h13, if_neg hno]
    · rw [if_neg hcur, if_neg fun h => hcur ⟨h.1, h.2.1, h.2.2.1⟩, drawchar]
      simp only [hcell, and_self, if_true, hr, hc]
  · rw [if_neg hrc]
    split
    · rw [fillRect, if_neg fun h => hrc (hbar.mp h).1, drawchar, if_neg fun h => hrc (hcell.mp h)]
    · rw [drawchar, if_neg fun h => hrc (hcell.mp h)]

/-! ## Cells that are blank, and cells that are drawn -/

/-- The cells of `G` are blanks in the grid. -/
def Screen.blank (G : ℤ → ℤ → Bool) (s : Screen) : Screen :=
  { s with
    ch := fun y x => if G y x then 32 else s.ch y x
    fgc := fun y x => if G y x then s.fg else s.fgc y x }

/-- And those of `P` are drawn as they are then. -/
def Screen.drawn (d : Display) (G P : ℤ → ℤ → Bool) (s : Screen) : Screen :=
  { s.blank G with
    fb := fun r c => if P (r / 16) (c / 8) then (s.blank G).pixel d r c else s.fb r c }

/-- No cells. -/
def nowhere : ℤ → ℤ → Bool := fun _ _ => false

/-- One more cell. -/
def also (G : ℤ → ℤ → Bool) (y x : ℤ) : ℤ → ℤ → Bool :=
  fun y' x' => G y' x' || decide (y' = y ∧ x' = x)

theorem drawn_nowhere (s : Screen) : s.drawn d nowhere nowhere = s := rfl

/-- A cell that was not drawn is set to a blank. -/
theorem blanked_drawn (h : P y x = false) (s : Screen) :
    (s.drawn d G P).blanked x y = s.drawn d (also G y x) P := by
  have hch : setAt (s.blank G).ch y x 32 = (s.blank (also G y x)).ch := by
    funext y' x'
    simp only [setAt, Screen.blank, also, Bool.or_eq_true, decide_eq_true_eq]
    by_cases hxy : y' = y ∧ x' = x <;> simp [hxy]
  have hfgc : setAt (s.blank G).fgc y x s.fg = (s.blank (also G y x)).fgc := by
    funext y' x'
    simp only [setAt, Screen.blank, also, Bool.or_eq_true, decide_eq_true_eq]
    by_cases hxy : y' = y ∧ x' = x <;> simp [hxy]
  have hfb : (s.drawn d G P).fb = (s.drawn d (also G y x) P).fb := by
    funext r c
    show (if P (r / 16) (c / 8) then (s.blank G).pixel d r c else s.fb r c) =
      if P (r / 16) (c / 8) then (s.blank (also G y x)).pixel d r c else s.fb r c
    by_cases hP : P (r / 16) (c / 8)
    · have hne : also G y x (r / 16) (c / 8) = G (r / 16) (c / 8) := by
        have : ¬ (r / 16 = y ∧ c / 8 = x) := by
          rintro ⟨rfl, rfl⟩
          rw [h] at hP
          exact absurd hP (by decide)
        simp [also, this]
      rw [if_pos hP, if_pos hP, Screen.pixel, Screen.pixel]
      simp only [Screen.blank, hne]
      rfl
    · rw [if_neg hP, if_neg hP]
  show { s.drawn d G P with
    ch := setAt (s.blank G).ch y x 32, fgc := setAt (s.blank G).fgc y x s.fg } = _
  rw [hch, hfgc, Screen.drawn, Screen.drawn]
  exact congrArg (fun fb => { s.blank (also G y x) with fb := fb }) hfb

/-- A cell is drawn. -/
theorem painted_drawn (h : InGrid d x y) (s : Screen) :
    (s.drawn d G P).painted d x y = s.drawn d G (also P y x) := by
  have hfb : ((s.drawn d G P).painted d x y).fb = (s.drawn d G (also P y x)).fb := by
    funext r c
    rw [painted_fb h]
    show (if r / 16 = y ∧ c / 8 = x then (s.blank G).pixel d r c
      else if P (r / 16) (c / 8) then (s.blank G).pixel d r c else s.fb r c) =
        if also P y x (r / 16) (c / 8) then (s.blank G).pixel d r c else s.fb r c
    by_cases hrc : r / 16 = y ∧ c / 8 = x
    · simp [also, hrc]
    · simp [also, hrc]
  exact congrArg (fun fb => { s.blank G with fb := fb }) hfb

/-! ## The cursor -/

/-- The cell that is drawn again when the cursor is drawn: the one where it was drawn before. -/
def Screen.isBlock (s : Screen) (y x : ℤ) : Bool :=
  decide ((0 ≤ s.curX ∧ (s.curX ≠ s.cx ∨ s.curY ≠ s.cy)) ∧ y = s.curY ∧ x = s.curX)

/-- The cell under the cursor, if the cursor is drawn. -/
def Screen.isCursor (s : Screen) (y x : ℤ) : Bool := decide (s.cursorOn ∧ y = s.cy ∧ x = s.cx)

/-- The cells of `P`, and those that are drawn again with the cursor. -/
def Screen.withCursor (s : Screen) (P : ℤ → ℤ → Bool) : ℤ → ℤ → Bool :=
  fun y x => P y x || s.isBlock y x || s.isCursor y x

/-- Where the cursor is drawn. -/
def Screen.settled (s : Screen) : Screen :=
  if s.cursorOn then { s with curX := s.cx, curY := s.cy } else { s with curX := -1 }

/-- What is blank and drawn when the cursor has been drawn, too. -/
def Screen.erased (d : Display) (G P : ℤ → ℤ → Bool) (s : Screen) : Screen :=
  (s.drawn d G (s.withCursor P)).settled

theorem drawn_congr {G' P' : ℤ → ℤ → Bool} (hG : ∀ y x, G y x = G' y x) (hP : ∀ y x, P y x = P' y x)
    (s : Screen) :
    s.drawn d G P = s.drawn d G' P' := by
  rw [show G = G' from funext₂ hG, show P = P' from funext₂ hP]

theorem sure_paint_eq (h : InGrid d x y) : Sure (· = s) (paint d x y) (· = s.painted d x y) :=
  .bind (sure_touch h) fun _ => .modify fun _ ht => congrArg (Screen.painted d x y) ht

/-- **`repaint_cursor`** draws at most two cells. -/
theorem sure_repaintCursor_drawn (h : OnGrid d s) :
    Sure (· = s.drawn d G P) (repaintCursor d) (· = s.erased d G P) := by
  refine .get_bind fun t ht => ?_
  subst ht
  refine .bind (Q := (· = s.drawn d G fun y x => P y x || s.isBlock y x))
    (.ite (fun hb => ?_) fun hb => .pure ?_)
    fun _ => .ite (fun hon => ?_) fun hoff => .modify fun t ht => ?_
  · refine (sure_paint_eq (h.block hb.1)).mono (fun _ => id) fun t ht => ht.trans ?_
    have hb : 0 ≤ s.curX ∧ (s.curX ≠ s.cx ∨ s.curY ≠ s.cy) := hb
    rw [painted_drawn (h.block hb.1)]
    exact drawn_congr (fun _ _ => rfl) (fun y x => by simp [also, Screen.isBlock, hb]) s
  · rintro t rfl
    have hb : ¬ (0 ≤ s.curX ∧ (s.curX ≠ s.cx ∨ s.curY ≠ s.cy)) := hb
    exact drawn_congr (fun _ _ => rfl) (fun y x => by simp [Screen.isBlock, hb]) s
  · have hon : s.cursorOn = true := hon
    refine .bind (Q := (· = s.drawn d G (s.withCursor P)))
      ((sure_paint_eq h.cursor).mono (fun _ => id) fun t ht => ht.trans ?_) fun _ =>
      .modify fun t ht => ?_
    · rw [painted_drawn h.cursor]
      exact drawn_congr (fun _ _ => rfl)
        (fun y x => by simp [also, Screen.withCursor, Screen.isCursor, hon]) s
    · rw [ht, Screen.erased, Screen.settled,
        if_pos (show (s.drawn d G (s.withCursor P)).cursorOn = true from hon)]
  · have hoff : ¬ s.cursorOn = true := hoff
    rw [ht, Screen.erased, Screen.settled,
      if_neg (show ¬ (s.drawn d G (s.withCursor P)).cursorOn = true from hoff)]
    have hsame : s.drawn d G (fun y x => P y x || s.isBlock y x) = s.drawn d G (s.withCursor P) :=
      drawn_congr (fun _ _ => rfl) (fun y x => by simp [Screen.withCursor, Screen.isCursor, hoff]) s
    rw [hsame]

/-! ## The two routines -/

/-- Some cells of a row. -/
def span (y₀ lo hi : ℤ) : ℤ → ℤ → Bool := fun y x => decide (y = y₀ ∧ lo ≤ x ∧ x < hi)

/-- Some whole rows. -/
def band (d : Display) (lo hi : ℤ) : ℤ → ℤ → Bool :=
  fun y x => decide ((lo ≤ y ∧ y < hi) ∧ 0 ≤ x ∧ x < cols d)

/-- The cells of either. -/
def either (G P : ℤ → ℤ → Bool) : ℤ → ℤ → Bool := fun y x => G y x || P y x

theorem either_span_nil (h : hi ≤ lo) (G : ℤ → ℤ → Bool) (y₀ y x : ℤ) :
    either G (span y₀ lo hi) y x = G y x := by
  have hno : ¬ (y = y₀ ∧ lo ≤ x ∧ x < hi) := by omega
  simp [either, span, hno]

theorem also_either_span (h : lo ≤ hi) (G : ℤ → ℤ → Bool) (y₀ y x : ℤ) :
    also (either G (span y₀ lo hi)) y₀ hi y x = either G (span y₀ lo (hi + 1)) y x := by
  have hiff : (y = y₀ ∧ lo ≤ x ∧ x < hi + 1) ↔ (y = y₀ ∧ lo ≤ x ∧ x < hi) ∨ y = y₀ ∧ x = hi := by
    omega
  simp only [also, either, span, Bool.or_assoc, ← Bool.decide_or, hiff]

theorem either_band_span (h : lo ≤ hi) (G : ℤ → ℤ → Bool) (y x : ℤ) :
    either (either G (band d lo hi)) (span hi 0 (cols d)) y x =
    either G (band d lo (hi + 1)) y x := by
  have hiff : ((lo ≤ y ∧ y < hi + 1) ∧ 0 ≤ x ∧ x < cols d) ↔
      ((lo ≤ y ∧ y < hi) ∧ 0 ≤ x ∧ x < cols d) ∨ y = hi ∧ 0 ≤ x ∧ x < cols d := by omega
  simp only [either, span, band, Bool.or_assoc, ← Bool.decide_or, hiff]

theorem either_band_nil (h : hi ≤ lo) (G : ℤ → ℤ → Bool) (y x : ℤ) :
    either G (band d lo hi) y x = G y x := by
  have hno : ¬ ((lo ≤ y ∧ y < hi) ∧ 0 ≤ x ∧ x < cols d) := by omega
  simp [either, band, hno]

theorem sure_blanked_drawn (h : P y x = false) :
    Sure (· = s.drawn d G P) (modify (Screen.blanked x y)) (· = s.drawn d (also G y x) P) :=
  .modify fun t ht => by rw [ht, blanked_drawn h]

theorem sure_paint_drawn (h : InGrid d x y) :
    Sure (· = s.drawn d G P) (paint d x y) (· = s.drawn d G (also P y x)) := by
  rw [← painted_drawn h]
  exact sure_paint_eq h

/-- **`erase_cell`**, and so a part of a row. -/
theorem sure_eraseCells (h : 0 ≤ y ∧ y < rows d) (hlo : 0 ≤ lo) (hle : lo ≤ hi)
    (hhi : hi ≤ cols d) :
    Sure (· = s) ((between lo hi).forM fun x => eraseCell d x y)
      (· = s.drawn d (span y lo hi) (span y lo hi)) := by
  have hloop := sure_between
    (I := fun i t => t = s.drawn d (either nowhere (span y lo i)) (either nowhere (span y lo i)))
    (f := fun x => eraseCell d x y) hle fun i hi₁ hi₂ => by
      have hin : InGrid d i y := ⟨⟨by omega, by omega⟩, h⟩
      have hnew : either nowhere (span y lo i) y i = false := by simp [either, nowhere, span]
      refine (Sure.bind (sure_touch hin) fun _ => .bind (sure_blanked_drawn hnew) fun _ =>
        sure_paint_drawn hin).mono
        (fun _ => id) fun t ht => ht.trans ?_
      exact drawn_congr (also_either_span hi₁ _ _) (also_either_span hi₁ _ _) s
  refine hloop.mono (fun t ht => ht.trans ?_) fun t ht => ht
  rw [drawn_congr (either_span_nil le_rfl nowhere y) (either_span_nil le_rfl nowhere y),
    drawn_nowhere]

theorem sure_blankRow_drawn (h : 0 ≤ y ∧ y < rows d) (hc : 0 ≤ cols d) (hP : ∀ x, P y x = false) :
    Sure (· = s.drawn d G P) (blankRow d y) (· = s.drawn d (either G (span y 0 (cols d))) P) := by
  have hloop := sure_between (I := fun i t => t = s.drawn d (either G (span y 0 i)) P)
    (f := fun x => touch y x >>= fun _ => modify (Screen.blanked x y)) hc fun i hi₁ hi₂ => by
      refine (Sure.bind (sure_touch ⟨⟨hi₁, hi₂⟩, h⟩) fun _ => sure_blanked_drawn (hP i)).mono
        (fun _ => id)
        fun t ht => ht.trans ?_
      exact drawn_congr (also_either_span hi₁ _ _) (fun _ _ => rfl) s
  refine hloop.mono (fun t ht => ht.trans ?_) fun t ht => ht
  exact drawn_congr (fun y' x => (either_span_nil le_rfl G y y' x).symm) (fun _ _ => rfl) s

theorem sure_paintCells (h : 0 ≤ y ∧ y < rows d) (hlo : 0 ≤ lo) (hle : lo ≤ hi)
    (hhi : hi ≤ cols d) :
    Sure (· = s.drawn d G P) ((between lo hi).forM fun x => paint d x y)
      (· = s.drawn d G (either P (span y lo hi))) := by
  have hloop := sure_between (I := fun i t => t = s.drawn d G (either P (span y lo i)))
    (f := fun x => paint d x y) hle fun i hi₁ hi₂ => by
      refine (sure_paint_drawn ⟨⟨by omega, by omega⟩, h⟩).mono (fun _ => id) fun t ht => ht.trans ?_
      exact drawn_congr (fun _ _ => rfl) (also_either_span hi₁ _ _) s
  refine hloop.mono (fun t ht => ht.trans ?_) fun t ht => ht
  exact drawn_congr (fun _ _ => rfl) (fun y' x => (either_span_nil le_rfl P y y' x).symm) s

/-- Whole rows are set to blanks. -/
theorem sure_blankRows (h : lo ≤ rows d) (hlo : 0 ≤ lo) (hc : 0 ≤ cols d) :
    Sure (· = s) ((between 0 lo).forM (blankRow d)) (· = s.drawn d (band d 0 lo) nowhere) := by
  have hloop := sure_between (I := fun i t => t = s.drawn d (either nowhere (band d 0 i)) nowhere)
    (f := blankRow d) hlo fun i hi₁ hi₂ => by
      refine (sure_blankRow_drawn ⟨hi₁, by omega⟩ hc fun _ => rfl).mono (fun _ => id)
        fun t ht => ht.trans ?_
      exact drawn_congr (either_band_span hi₁ nowhere) (fun _ _ => rfl) s
  refine hloop.mono (fun t ht => ht.trans ?_) fun t ht => ht
  exact (drawn_nowhere s).symm.trans (drawn_congr (either_band_nil le_rfl nowhere)
    (fun _ _ => rfl) s).symm

/-- Whole rows are drawn. -/
theorem sure_paintRows (h : lo ≤ rows d) (hlo : 0 ≤ lo) (hc : 0 ≤ cols d) :
    Sure (· = s.drawn d G P) ((between 0 lo).forM fun y => (between 0 (cols d)).forM
      fun x => paint d x y)
      (· = s.drawn d G (either P (band d 0 lo))) := by
  have hloop := sure_between (I := fun i t => t = s.drawn d G (either P (band d 0 i)))
    (f := fun y => (between 0 (cols d)).forM fun x => paint d x y) hlo fun i hi₁ hi₂ => by
      refine (sure_paintCells ⟨hi₁, by omega⟩ le_rfl hc le_rfl).mono (fun _ => id)
        fun t ht => ht.trans ?_
      exact drawn_congr (fun _ _ => rfl) (either_band_span hi₁ _) s
  refine hloop.mono (fun t ht => ht.trans ?_) fun t ht => ht
  exact drawn_congr (fun _ _ => rfl) (fun y x => (either_band_nil le_rfl P y x).symm) s

/-- **What `erase_line` does.** -/
theorem sure_eraseLine_drawn (h : OnGrid d s) {how : ℤ} (hlo : (if how = 1 ∨ how = 2 then 0
      else s.cx) = lo)
    (hhi : (if how = 1 then s.cx + 1 else cols d) = hi) :
    Sure (· = s) (eraseLine d how) (· = s.erased d (span s.cy lo hi) (span s.cy lo hi)) := by
  obtain ⟨⟨hx, hx'⟩, hy⟩ := h.cursor
  have hbounds : 0 ≤ lo ∧ lo ≤ hi ∧ hi ≤ cols d := by
    subst hlo hhi
    split_ifs <;> omega
  refine .get_bind fun t ht => ?_
  subst ht
  rw [hlo, hhi]
  exact .bind (sure_eraseCells hy hbounds.1 hbounds.2.1 hbounds.2.2) fun _ =>
    sure_repaintCursor_drawn h

/-- **What `erase_display` does** before the cursor: the grid is blank to the end of the row. -/
theorem sure_eraseDisplay_drawn (h : OnGrid d s) :
    Sure (· = s) (eraseDisplay d 1)
      (· = s.erased d (band d 0 (s.cy + 1)) (either (span s.cy 0 (s.cx + 1)) (band d 0 s.cy))) := by
  obtain ⟨⟨hx, hx'⟩, hy, hy'⟩ := h.cursor
  have hc : 0 ≤ cols d := by omega
  refine .get_bind fun t ht => ?_
  subst ht
  rw [if_neg (by decide), if_pos rfl]
  have hrow : Sure (· = t.drawn d (band d 0 t.cy) nowhere) (blankRow d t.cy)
      (· = t.drawn d (band d 0 (t.cy + 1)) nowhere) := by
    refine (sure_blankRow_drawn ⟨hy, hy'⟩ hc fun _ => rfl).mono (fun _ => id)
      fun u hu => hu.trans ?_
    exact drawn_congr (either_band_span hy nowhere) (fun _ _ => rfl) t
  refine .bind (sure_blankRows hy'.le hy hc) fun _ => .bind hrow fun _ =>
    .bind (sure_paintCells ⟨hy, hy'⟩ le_rfl (by omega) (by omega)) fun _ =>
    .bind (sure_paintRows hy'.le hy hc) fun _ => ?_
  exact sure_repaintCursor_drawn h

/-! ## Two pictures -/

/-- The cell is a blank in the grid. -/
def Screen.IsBlank (s : Screen) (y x : ℤ) : Prop := s.ch y x = 32 ∧ s.fgc y x = s.fg

/-- The pixel of a blank. -/
def Screen.blankPixel (d : Display) (s : Screen) (r c : ℤ) : UInt32 :=
  if d.glyph 32 (r % 16).toNat &&& (0x80 >>> UInt8.ofNat (c % 8).toNat) ≠ 0 then s.fg else s.bg

/-- The cell looks like a blank, or it is the one that is drawn again because the cursor was
there. -/
def Screen.LooksBlank (d : Display) (s : Screen) (y x : ℤ) : Prop :=
  (0 ≤ s.curX ∧ s.curX = x ∧ s.curY = y) ∨ ∀ r c, r / 16 = y → c / 8 = x →
    s.fb r c = s.blankPixel d r c

@[simp] theorem settled_ch (s : Screen) : s.settled.ch = s.ch := by
  rw [Screen.settled]
  split <;> rfl

@[simp] theorem settled_fgc (s : Screen) : s.settled.fgc = s.fgc := by
  rw [Screen.settled]
  split <;> rfl

@[simp] theorem settled_fb (s : Screen) : s.settled.fb = s.fb := by
  rw [Screen.settled]
  split <;> rfl

/-- **Two pictures are the same** when the grids are, and the pixels. -/
theorem erased_eq_iff (s : Screen) : s.erased d G P = s.erased d R R ↔
    (s.blank G).ch = (s.blank R).ch ∧ (s.blank G).fgc = (s.blank R).fgc ∧
      (s.drawn d G (s.withCursor P)).fb = (s.drawn d R (s.withCursor R)).fb := by
  constructor
  · intro h
    have hch := congrArg Screen.ch h
    have hfgc := congrArg Screen.fgc h
    have hfb := congrArg Screen.fb h
    rw [Screen.erased, Screen.erased, settled_ch, settled_ch] at hch
    rw [Screen.erased, Screen.erased, settled_fgc, settled_fgc] at hfgc
    rw [Screen.erased, Screen.erased, settled_fb, settled_fb] at hfb
    exact ⟨hch, hfgc, hfb⟩
  · rintro ⟨hch, hfgc, hfb⟩
    refine congrArg Screen.settled ?_
    show ({ s with
      ch := (s.blank G).ch
      fgc := (s.blank G).fgc
      fb := (s.drawn d G (s.withCursor P)).fb } : Screen) = _
    rw [hch, hfgc, hfb]
    rfl

@[simp] theorem erased_ch (s : Screen) (y x : ℤ) : (s.erased d G P).ch y x = if G y x then 32
    else s.ch y x := by
  rw [Screen.erased, settled_ch]
  rfl

theorem blank_ch_eq_iff (s : Screen) : (s.blank G).ch = (s.blank R).ch ∧
    (s.blank G).fgc = (s.blank R).fgc ↔
    ∀ y x, G y x ≠ R y x → s.IsBlank y x := by
  constructor
  · rintro ⟨hch, hfgc⟩ y x hne
    have hch : (if G y x then 32 else s.ch y x) = if R y x then 32 else s.ch y x :=
      congrFun₂ hch y x
    have hfgc : (if G y x then s.fg else s.fgc y x) = if R y x then s.fg else s.fgc y x :=
      congrFun₂ hfgc y x
    cases hG : G y x with
    | true =>
      have hR : R y x = false := by simpa [hG] using hne
      rw [hG, hR] at hch hfgc
      exact ⟨hch.symm, hfgc.symm⟩
    | false =>
      have hR : R y x = true := by simpa [hG] using hne
      rw [hG, hR] at hch hfgc
      exact ⟨hch, hfgc⟩
  · intro h
    refine ⟨funext₂ fun y x => ?_, funext₂ fun y x => ?_⟩
    · show (if G y x then 32 else s.ch y x) = if R y x then 32 else s.ch y x
      by_cases hne : G y x = R y x
      · rw [hne]
      · simp [(h y x hne).1]
    · show (if G y x then s.fg else s.fgc y x) = if R y x then s.fg else s.fgc y x
      by_cases hne : G y x = R y x
      · rw [hne]
      · simp [(h y x hne).2]

/-- A blank that is not under the cursor. -/
theorem pixel_blank {r c : ℤ} (hG : G (r / 16) (c / 8) = true)
    (hcur : s.isCursor (r / 16) (c / 8) = false) :
    (s.blank G).pixel d r c = s.blankPixel d r c := by
  have hno : ¬ (s.cursorOn ∧ c / 8 = s.cx ∧ r / 16 = s.cy ∧ 13 ≤ r % 16) := by
    rintro ⟨hon, hx, hy, -⟩
    simp [Screen.isCursor, hon, hx, hy] at hcur
  rw [Screen.pixel, Screen.blankPixel]
  show (if s.cursorOn ∧ c / 8 = s.cx ∧ r / 16 = s.cy ∧ 13 ≤ r % 16 then _ else _) = _
  rw [if_neg hno]
  simp only [Screen.blank, hG, if_true]

/-- **When the pixels are the same**, if the grids are: where one is drawn and the other is not,
there was a blank. -/
theorem drawn_fb_eq_iff (hgrid : (s.blank G).ch = (s.blank R).ch ∧
      (s.blank G).fgc = (s.blank R).fgc)
    (hPG : ∀ y x, P y x = true → G y x = true) (hP : P s.cy s.cx = true) (hR : R s.cy s.cx = true) :
    (s.drawn d G (s.withCursor P)).fb = (s.drawn d R (s.withCursor R)).fb ↔
      ∀ y x, P y x ≠ R y x → s.LooksBlank d y x := by
  have hblank : s.blank G = s.blank R := by
    show ({ s with ch := (s.blank G).ch, fgc := (s.blank G).fgc } : Screen) = _
    rw [hgrid.1, hgrid.2]
    rfl
  have hpix : ∀ r c, P (r / 16) (c / 8) ≠ R (r / 16) (c / 8) →
      s.isCursor (r / 16) (c / 8) = false ∧ (s.blank R).pixel d r c = s.blankPixel d r c := by
    intro r c hne
    have hcur : s.isCursor (r / 16) (c / 8) = false := by
      by_contra hcur
      have hcell : s.cursorOn ∧ r / 16 = s.cy ∧ c / 8 = s.cx := by
        simpa [Screen.isCursor] using hcur
      rw [hcell.2.1, hcell.2.2, hP, hR] at hne
      exact hne rfl
    refine ⟨hcur, ?_⟩
    cases hp : P (r / 16) (c / 8) with
    | true =>
      rw [← hblank]
      exact pixel_blank (hPG _ _ hp) hcur
    | false => exact pixel_blank (by simpa [hp] using hne) hcur
  have hfb : ∀ r c, (s.drawn d G (s.withCursor P)).fb r c = (s.drawn d R (s.withCursor R)).fb r c ↔
      (P (r / 16) (c / 8) ≠ R (r / 16) (c / 8) → s.isBlock (r / 16) (c / 8) = false →
        s.fb r c = s.blankPixel d r c) := by
    intro r c
    show (if s.withCursor P (r / 16) (c / 8) then (s.blank G).pixel d r c else s.fb r c) =
      (if s.withCursor R (r / 16) (c / 8) then (s.blank R).pixel d r c else s.fb r c) ↔ _
    rw [hblank, Screen.withCursor, Screen.withCursor]
    by_cases hne : P (r / 16) (c / 8) = R (r / 16) (c / 8)
    · rw [hne]
      exact iff_of_true rfl fun h => absurd rfl h
    · obtain ⟨hcur, hpixel⟩ := hpix r c hne
      rw [hcur, hpixel]
      cases hb : s.isBlock (r / 16) (c / 8) with
      | true => simp
      | false =>
        cases hp : P (r / 16) (c / 8) with
        | true =>
          have hr : R (r / 16) (c / 8) = false := by simpa [hp] using hne
          simp [hr, eq_comm]
        | false =>
          have hr : R (r / 16) (c / 8) = true := by simpa [hp] using hne
          simp [hr]
  constructor
  · intro h y x hne
    by_cases hb : 0 ≤ s.curX ∧ s.curX = x ∧ s.curY = y
    · exact Or.inl hb
    · refine Or.inr fun r c hr hc => ?_
      subst hr hc
      refine (hfb r c).mp (congrFun₂ h r c) hne (decide_eq_false fun hblock => hb ?_)
      exact ⟨hblock.1.1, hblock.2.2.symm, hblock.2.1.symm⟩
  · intro h
    funext r c
    refine (hfb r c).mpr fun hne hb => ((h _ _ hne).resolve_left fun hblock => ?_) r c rfl rfl
    -- The cell is not the one under the cursor, which is in both regions.
    refine of_decide_eq_false hb ⟨⟨hblock.1, ?_⟩, hblock.2.2.symm, hblock.2.1.symm⟩
    by_contra hsame
    obtain ⟨hx, hy⟩ := not_or.mp hsame
    rw [← hblock.2.2, ← hblock.2.1, not_not.mp hx, not_not.mp hy, hP, hR] at hne
    exact hne rfl

/-- **When the picture is the one it should be.** -/
theorem erased_eq_iff_blank (hPG : ∀ y x, P y x = true → G y x = true) (hP : P s.cy s.cx = true)
    (hR : R s.cy s.cx = true) : s.erased d G P = s.erased d R R ↔
      ∀ y x, (G y x ≠ R y x → s.IsBlank y x) ∧ (P y x ≠ R y x → s.LooksBlank d y x) := by
  rw [erased_eq_iff, ← and_assoc]
  constructor
  · rintro ⟨hgrid, hfb⟩ y x
    exact ⟨(blank_ch_eq_iff s).mp hgrid y x, (drawn_fb_eq_iff hgrid hPG hP hR).mp hfb y x⟩
  · intro h
    have hgrid := (blank_ch_eq_iff s).mpr fun y x => (h y x).1
    exact ⟨hgrid, (drawn_fb_eq_iff hgrid hPG hP hR).mpr fun y x => (h y x).2⟩

/-! ## The commands -/

/-- `K`, `0K`, `1K`, `2K`, and `J`, `0J`, `1J`. -/
inductive EraseCmd
  | k
  | k0
  | k1
  | k2
  | j
  | j0
  | j1

namespace EraseCmd

/-- The parameter as it is written, and the command. -/
def body : EraseCmd → List UInt8
  | .k | .j => []
  | .k0 | .j0 => [0x30]
  | .k1 | .j1 => [0x31]
  | .k2 => [0x32]

def final : EraseCmd → UInt8
  | .k | .k0 | .k1 | .k2 => 0x4B
  | .j | .j0 | .j1 => 0x4A

/-- **What it should erase**: from the cursor to the end, from the start to the cursor, or all. -/
def region (d : Display) (s : Screen) : EraseCmd → ℤ → ℤ → Bool
  | .k | .k0 => span s.cy s.cx (cols d)
  | .k1 => span s.cy 0 (s.cx + 1)
  | .k2 => span s.cy 0 (cols d)
  | .j | .j0 => either (span s.cy s.cx (cols d)) (band d (s.cy + 1) (rows d))
  | .j1 => either (span s.cy 0 (s.cx + 1)) (band d 0 s.cy)

/-- What the code sets to blanks. -/
def blanked (d : Display) (s : Screen) : EraseCmd → ℤ → ℤ → Bool
  | .k | .k0 | .k1 => span s.cy 0 (s.cx + 1)
  | .k2 => span s.cy 0 (cols d)
  | .j | .j0 | .j1 => band d 0 (s.cy + 1)

/-- And what it draws. -/
def painted (d : Display) (s : Screen) : EraseCmd → ℤ → ℤ → Bool
  | .k | .k0 | .k1 => span s.cy 0 (s.cx + 1)
  | .k2 => span s.cy 0 (cols d)
  | .j | .j0 | .j1 => either (span s.cy 0 (s.cx + 1)) (band d 0 s.cy)

/-- **What should not have been erased, or should have been and was not, was blank before.** -/
def Spared (d : Display) (s : Screen) : EraseCmd → Prop
  | .k | .k0 => ∀ x, 0 ≤ x → x < cols d → x ≠ s.cx → s.IsBlank s.cy x ∧ s.LooksBlank d s.cy x
  | .k1 | .k2 => True
  | .j | .j0 => ∀ y x, InGrid d x y →
      (y = s.cy ∧ s.cx ≤ x ∨ s.IsBlank y x) ∧ (y = s.cy ∧ x = s.cx ∨ s.LooksBlank d y x)
  | .j1 => ∀ x, s.cx < x → x < cols d → s.IsBlank s.cy x

end EraseCmd

/-- **The command erases its region**, in the grid and on the framebuffer, and nothing else. -/
def Erases (d : Display) (k : Console) (e : EraseCmd) : Prop :=
  (puts d (sequence e.body e.final) k).map Console.screen =
    some (k.screen.erased d (e.region d k.screen) (e.region d k.screen))

theorem result_of_sure {α : Type} {x : Draw α} (h : Sure (· = s) x (· = t)) :
    (x.result s).map Prod.snd = some t := by
  obtain ⟨_, u, hrun, hu⟩ := result_of_wp (h s rfl)
  rw [hrun, ← hu]
  rfl

/-- What a sequence with one parameter comes to. -/
theorem fed_param (e : Escape) {n : ℤ} {body : List UInt8}
    (h : (body.foldl Escape.feed ({ e with state := .inCsi } : Escape).start).pend = n)
    (h0 : (body.foldl Escape.feed ({ e with state := .inCsi } : Escape).start).nparam = 0) :
    (e.fed body).param 0 = n := by
  rw [Escape.fed, push_param, h0, if_pos (by decide), Function.update_self, h]

theorem Escape.fed_param_nil (e : Escape) : (e.fed []).param 0 = 0 := fed_param e rfl rfl

/-- A sequence with one digit. -/
theorem Escape.fed_param_digit (e : Escape) {c : UInt8} (hc : 0x30 ≤ c ∧ c ≤ 0x39) :
    (e.fed [c]).param 0 = wrap (c.toNat - 0x30) := by
  refine fed_param e ?_ ?_
  · rw [List.foldl_cons, List.foldl_nil, Escape.feed, if_pos hc]
    show wrap (0 * 10 + (c.toNat - 0x30)) = _
    rw [zero_mul, zero_add]
  · rw [List.foldl_cons, List.foldl_nil, Escape.feed, if_pos hc]
    rfl

theorem sure_csiDispatch_line (h : OnGrid d s) (e : Escape) {a : ℤ}
    (ha : (if e.param 0 ≠ 0 then e.param 0 else 1) = a) (hlo : (if a = 1 ∨ a = 2 then 0
      else s.cx) = lo) (hhi : (if a = 1 then s.cx + 1 else cols d) = hi) :
    Sure (· = s) (csiDispatch d e 0x4B) (· = s.erased d (span s.cy lo hi) (span s.cy lo hi)) := by
  rw [csiDispatch, if_neg (by decide), ha]
  refine .bind (.get_bind fun t ht => ?_) fun _ => .pure fun _ => id
  subst ht
  exact sure_eraseLine_drawn h hlo hhi

theorem sure_csiDispatch_display (h : OnGrid d s) (e : Escape)
    (ha : (if e.param 0 ≠ 0 then e.param 0 else 1) = 1) :
    Sure (· = s) (csiDispatch d e 0x4A)
      (· = s.erased d (band d 0 (s.cy + 1)) (either (span s.cy 0 (s.cx + 1)) (band d 0 s.cy))) := by
  rw [csiDispatch, if_neg (by decide), ha]
  refine .bind (.get_bind fun t ht => ?_) fun _ => .pure fun _ => id
  subst ht
  exact sure_eraseDisplay_drawn h

/-- The parameter. -/
def EraseCmd.param : EraseCmd → ℤ
  | .k | .j | .k0 | .j0 => 0
  | .k1 | .j1 => 1
  | .k2 => 2

theorem EraseCmd.digit_body (e : EraseCmd) : ∀ c ∈ e.body, 0x30 ≤ c ∧ c ≤ 0x39 := by
  cases e <;> simp [EraseCmd.body]

theorem EraseCmd.fed_param (e : EraseCmd) (esc : Escape) : (esc.fed e.body).param 0 = e.param := by
  cases e with
  | k => exact esc.fed_param_nil
  | j => exact esc.fed_param_nil
  | k0 => exact esc.fed_param_digit (by decide)
  | k1 => exact esc.fed_param_digit (by decide)
  | k2 => exact esc.fed_param_digit (by decide)
  | j0 => exact esc.fed_param_digit (by decide)
  | j1 => exact esc.fed_param_digit (by decide)

theorem inBody_digit {c : UInt8} (h : 0x30 ≤ c ∧ c ≤ 0x39) : InBody c := by
  refine ⟨fun hf => absurd (UInt8.le_trans hf.1 h.2) (by decide), ?_⟩
  rintro rfl
  exact absurd h.1 (by decide)

/-- **What the commands do.** -/
theorem puts_erase (hs : k.esc.state = .plain) (hk : OnGrid d k.screen) (e : EraseCmd) :
    (puts d (sequence e.body e.final) k).map Console.screen =
      some (k.screen.erased d (e.blanked d k.screen) (e.painted d k.screen)) := by
  have hfinal : 0x40 ≤ e.final ∧ e.final ≤ 0x7E := by
    cases e <;> decide
  have hparam := e.fed_param k.esc
  rw [puts_sequence hs (fun c hc => inBody_digit (e.digit_body c hc)) hfinal]
  generalize k.esc.fed e.body = esc at hparam
  have ha : ∀ {a : ℤ}, (if e.param ≠ 0 then e.param else 1) = a →
      (if esc.param 0 ≠ 0 then esc.param 0 else 1) = a := by
    rw [hparam]
    exact id
  have hleft := fun ha => sure_csiDispatch_line hk esc (a := 1) ha
    (show (if (1 : ℤ) = 1 ∨ (1 : ℤ) = 2 then 0 else k.screen.cx) = 0 from if_pos (by decide))
    (show (if (1 : ℤ) = 1 then k.screen.cx + 1 else cols d) = k.screen.cx + 1 from if_pos rfl)
  have hall := fun ha => sure_csiDispatch_line hk esc (a := 2) ha
    (show (if (2 : ℤ) = 1 ∨ (2 : ℤ) = 2 then 0 else k.screen.cx) = 0 from if_pos (by decide))
    (show (if (2 : ℤ) = 1 then k.screen.cx + 1 else cols d) = cols d from if_neg (by decide))
  cases e with
  | k => exact result_of_sure (hleft (ha rfl))
  | k0 => exact result_of_sure (hleft (ha rfl))
  | k1 => exact result_of_sure (hleft (ha rfl))
  | k2 => exact result_of_sure (hall (ha rfl))
  | j => exact result_of_sure (sure_csiDispatch_display hk esc (ha rfl))
  | j0 => exact result_of_sure (sure_csiDispatch_display hk esc (ha rfl))
  | j1 => exact result_of_sure (sure_csiDispatch_display hk esc (ha rfl))

theorem row_iff {p q : ℤ → ℤ → Prop} {y₀ n x₀ : ℤ} :
    (∀ y x, (y = y₀ ∧ 0 ≤ x ∧ x < n ∧ x ≠ x₀ → p y x) ∧ (y = y₀ ∧ 0 ≤ x ∧ x < n ∧ x ≠ x₀ → q y x)) ↔
      ∀ x, 0 ≤ x → x < n → x ≠ x₀ → p y₀ x ∧ q y₀ x := by
  constructor
  · intro h x h₀ hn hx
    exact ⟨(h y₀ x).1 ⟨rfl, h₀, hn, hx⟩, (h y₀ x).2 ⟨rfl, h₀, hn, hx⟩⟩
  · intro h y x
    constructor
    · rintro ⟨rfl, h₀, hn, hx⟩
      exact (h x h₀ hn hx).1
    · rintro ⟨rfl, h₀, hn, hx⟩
      exact (h x h₀ hn hx).2

theorem below_iff {A B C D E : Prop} : (A ∧ ¬ B → D) ∧ (A ∧ ¬ C → E) ↔ (A → (B ∨ D) ∧ (C ∨ E)) := by
  tauto

/-- **A command erases its region** just when the rest was blank before. -/
theorem erases_iff (hs : k.esc.state = .plain) (hk : OnGrid d k.screen) (e : EraseCmd) :
    Erases d k e ↔ e.Spared d k.screen := by
  obtain ⟨⟨hx, hx'⟩, hy, hy'⟩ := hk.cursor
  rw [Erases, puts_erase hs hk, Option.some.injEq, erased_eq_iff_blank]
  · have hline : ∀ y x : ℤ, span k.screen.cy 0 (k.screen.cx + 1) y x ≠ span k.screen.cy
      k.screen.cx (cols d) y x ↔
        y = k.screen.cy ∧ 0 ≤ x ∧ x < cols d ∧ x ≠ k.screen.cx := by
      intro y x
      simp only [span, ne_eq, decide_eq_decide]
      omega
    have hgrid : ∀ y x : ℤ, band d 0 (k.screen.cy + 1) y x ≠
          either (span k.screen.cy k.screen.cx (cols d)) (band d (k.screen.cy + 1) (rows d)) y x ↔
        InGrid d x y ∧ ¬ (y = k.screen.cy ∧ k.screen.cx ≤ x) := by
      intro y x
      simp only [span, band, either, ← Bool.decide_or, ne_eq, decide_eq_decide, InGrid]
      omega
    have hdrawn : ∀ y x : ℤ, either (span k.screen.cy 0 (k.screen.cx + 1))
      (band d 0 k.screen.cy) y x ≠
          either (span k.screen.cy k.screen.cx (cols d)) (band d (k.screen.cy + 1) (rows d)) y x ↔
        InGrid d x y ∧ ¬ (y = k.screen.cy ∧ x = k.screen.cx) := by
      intro y x
      simp only [span, band, either, ← Bool.decide_or, ne_eq, decide_eq_decide, InGrid]
      omega
    have hrow : ∀ y x : ℤ, band d 0 (k.screen.cy + 1) y x ≠
          either (span k.screen.cy 0 (k.screen.cx + 1)) (band d 0 k.screen.cy) y x ↔
        y = k.screen.cy ∧ k.screen.cx < x ∧ x < cols d := by
      intro y x
      simp only [span, band, either, ← Bool.decide_or, ne_eq, decide_eq_decide]
      omega
    cases e with
    | k =>
      simp only [EraseCmd.region, EraseCmd.blanked, EraseCmd.painted, EraseCmd.Spared, hline]
      exact row_iff
    | k0 =>
      simp only [EraseCmd.region, EraseCmd.blanked, EraseCmd.painted, EraseCmd.Spared, hline]
      exact row_iff
    | k1 => simp [EraseCmd.region, EraseCmd.blanked, EraseCmd.painted, EraseCmd.Spared]
    | k2 => simp [EraseCmd.region, EraseCmd.blanked, EraseCmd.painted, EraseCmd.Spared]
    | j =>
      simp only [EraseCmd.region, EraseCmd.blanked, EraseCmd.painted,
        EraseCmd.Spared, hgrid, hdrawn]
      exact forall₂_congr fun y x => below_iff
    | j0 =>
      simp only [EraseCmd.region, EraseCmd.blanked, EraseCmd.painted,
        EraseCmd.Spared, hgrid, hdrawn]
      exact forall₂_congr fun y x => below_iff
    | j1 =>
      simp only [EraseCmd.region, EraseCmd.blanked, EraseCmd.painted, EraseCmd.Spared, hrow,
        ne_eq, not_true_eq_false,
        false_implies, and_true]
      exact ⟨fun h x h₁ h₂ => h _ x ⟨rfl, h₁, h₂⟩, fun h y x hc => hc.1 ▸ h x hc.2.1 hc.2.2⟩
  · cases e <;> simp [EraseCmd.blanked, EraseCmd.painted, either, band, span] <;> omega
  · cases e <;> simp [EraseCmd.painted, either, band, span] <;> omega
  · cases e <;> simp [EraseCmd.region, either, band, span] <;> omega

/-- The first command on a screen that nothing was written to. -/
theorem erases_start : Erases ⟨16, 16, fun _ _ => 0⟩ (powerOn (fun _ => 0) fun _ _ => 0) .k ↔
    EraseCmd.Spared ⟨16, 16, fun _ _ => 0⟩ (powerOn (fun _ => 0) fun _ _ => 0).screen .k :=
  erases_iff rfl (onGrid_powerOn (by decide) (by decide)) .k

/-- A letter is written, and then what is behind it should be erased: it is the letter that goes. -/
theorem not_erases_letter : ∃ k, puts ⟨16, 16, fun _ _ => 0⟩ [97]
    (powerOn (fun _ => 0) fun _ _ => 0) = some k ∧
    ¬ Erases ⟨16, 16, fun _ _ => 0⟩ k .k := by
  have hstart : OnGrid ⟨16, 16, fun _ _ => 0⟩ (powerOn (fun _ => 0) fun _ _ => 0).screen :=
    onGrid_powerOn (by decide) (by decide)
  obtain ⟨k, hk, -⟩ := puts_stays (by decide) (by decide) [97] hstart
  refine ⟨k, hk, fun h => ?_⟩
  have hbefore : (puts ⟨16, 16, fun _ _ => 0⟩ [97] (powerOn (fun _ => 0) fun _ _ => 0)).map
      (fun k => (k.screen.ch 0 0, k.screen.cx)) = some (97, 1) := by decide +kernel
  have hafter : (puts ⟨16, 16, fun _ _ => 0⟩ ([97] ++ sequence [] 0x4B)
    (powerOn (fun _ => 0) fun _ _ => 0)).map
      (fun k => k.screen.ch 0 0) = some 32 := by decide +kernel
  rw [puts_append, hk] at hafter
  rw [hk] at hbefore
  obtain ⟨hch, hcx⟩ := Prod.mk.inj (Option.some.inj hbefore)
  have hblank := congrArg (Option.map fun s : Screen => s.ch 0 0) h
  rw [Option.map_map] at hblank
  have hcell := Option.some.inj (hafter.symm.trans hblank)
  have hout : EraseCmd.k.region ⟨16, 16, fun _ _ => 0⟩ k.screen 0 0 = false := by
    simp [EraseCmd.region, span, hcx]
  simp only [erased_ch, hout, hch] at hcell
  exact absurd hcell (by decide)

end Console

end Aurisys
