import Aurisys.Kernel.Erase
import Aurisys.Kernel.Tty

/-!
# Erasing what was echoed

For an erase character the terminal echoes a backspace, a blank and a backspace. In `putchar`, the
case of the backspace goes on to the code that draws: the backspace itself becomes a character of
the grid, and the cursor goes on behind it. So a backspace does not go back, and each erasure takes
the cursor one column further.

What matters is the text: the characters with their colours, and the cursor.

## Main definitions

* `Console.Text`, `Console.Screen.text` — the screen without its pixels
* `Console.Text.draw`, `Console.Text.back` — what a character and a backspace do to it
* `Console.Restores`, `Console.Returns` — what erasing should do
* `Console.Coincides` — the only screen on which it does

## Main results

* `Console.sure_draw_text`, `Console.putchar_back` — the screen follows the text
* `Console.restores_iff`
-/

namespace Aurisys

open Fallible

namespace Console

variable {d : Display} {s t : Screen} {k k' : Console} {x y lo hi : ℤ}
  {R : ℤ → ℤ → Bool} {c : UInt8}

/-! ## The text on a screen -/

/-- The characters, their colours and the cursor. -/
structure Text where
  ch : ℤ → ℤ → UInt8
  fgc : ℤ → ℤ → UInt32
  cx : ℤ
  cy : ℤ
  fg : UInt32

def Screen.text (s : Screen) : Text := ⟨s.ch, s.fgc, s.cx, s.cy, s.fg⟩

namespace Text

/-- A character with its colour. -/
def cell (t : Text) (y x : ℤ) : UInt8 × UInt32 := (t.ch y x, t.fgc y x)

/-- A character under the cursor. -/
def set (c : UInt8) (t : Text) : Text :=
  { t with ch := setAt t.ch t.cy t.cx c, fgc := setAt t.fgc t.cy t.cx t.fg }

/-- Some cells are as those below them were. -/
def shift (R : ℤ → ℤ → Bool) (t : Text) : Text :=
  { t with
    ch := fun y x => if R y x then t.ch (y + 1) x else t.ch y x
    fgc := fun y x => if R y x then t.fgc (y + 1) x else t.fgc y x }

/-- Some cells are blank. -/
def blank (R : ℤ → ℤ → Bool) (t : Text) : Text :=
  { t with
    ch := fun y x => if R y x then 32 else t.ch y x
    fgc := fun y x => if R y x then t.fg else t.fgc y x }

/-- All rows go up by one. -/
def scroll (d : Display) (t : Text) : Text :=
  { (t.shift (band d 0 (rows d - 1))).blank (span (rows d - 1) 0 (cols d)) with cy := rows d - 1 }

/-- The cursor goes on. -/
def advance (d : Display) (t : Text) : Text :=
  if t.cx + 1 < cols d then { t with cx := t.cx + 1 }
  else if t.cy + 1 < rows d then { t with cx := 0, cy := t.cy + 1 }
  else { t.scroll d with cx := 0 }

/-- What a character does. -/
def draw (d : Display) (c : UInt8) (t : Text) : Text := (t.set c).advance d

/-- What a backspace does. -/
def back (d : Display) (t : Text) : Text :=
  (({ t with cx := if 0 < t.cx then t.cx - 1 else t.cx }).set 32).draw d 8

end Text

/-! ## The screen follows the text -/

/-- What holds of the text. -/
def Reads (T : Text) (s : Screen) : Prop := s.text = T

variable {T : Text}

theorem sure_paint_text (h : InGrid d x y) : Sure (Reads T) (paint d x y) (Reads T) :=
  .bind (sure_touch h) fun _ => .modify fun _ hs => hs

theorem erased_nowhere_text (s : Screen) : (s.erased d nowhere nowhere).text = s.text := by
  rw [Screen.erased, Screen.settled]
  split <;> rfl

/-- Drawing the cursor leaves the text alone. -/
theorem sure_repaintCursor_text (h : OnGrid d s) :
    Sure (· = s) (repaintCursor d) (Reads s.text) := by
  refine (sure_repaintCursor_drawn (G := nowhere) (P := nowhere) h).mono
    (fun t ht => ht) fun t ht => ?_
  rw [Reads, ht, erased_nowhere_text]

theorem sure_blankRow_text (h : 0 ≤ y ∧ y < rows d) (hc : 0 ≤ cols d) :
    Sure (Reads T) (blankRow d y) (Reads (T.blank (span y 0 (cols d)))) := by
  intro s hs
  refine (sure_blankRow_drawn (s := s) (G := nowhere) (P := nowhere) h hc fun _ => rfl).mono
    (fun t ht => ht)
    (fun t ht => ?_) s rfl
  subst hs
  rw [Reads, ht]
  show Text.mk (fun y' x => if either nowhere (span y 0 (cols d)) y' x then 32 else s.ch y' x)
    (fun y' x => if either nowhere (span y 0 (cols d)) y' x then s.fg
      else s.fgc y' x) s.cx s.cy s.fg = _
  have heither : either nowhere (span y 0 (cols d)) = span y 0 (cols d) := by
    funext y' x
    simp [either, nowhere]
  rw [heither]
  rfl

/-- A cell is as the one below it was, which has not been written to. -/
theorem shift_also (h : R (y + 1) x = false) (T : Text) :
    (⟨setAt (T.shift R).ch y x ((T.shift R).ch (y + 1) x),
      setAt (T.shift R).fgc y x ((T.shift R).fgc (y + 1) x), T.cx,
      T.cy, T.fg⟩ : Text) = T.shift (also R y x) := by
  have hch : setAt (T.shift R).ch y x ((T.shift R).ch (y + 1) x) = (T.shift (also R y x)).ch := by
    funext y' x'
    simp only [setAt, Text.shift, also, h]
    by_cases hxy : y' = y ∧ x' = x
    · simp [hxy]
    · simp [hxy]
  have hfgc : setAt (T.shift R).fgc y x ((T.shift R).fgc (y + 1) x) =
      (T.shift (also R y x)).fgc := by
    funext y' x'
    simp only [setAt, Text.shift, also, h]
    by_cases hxy : y' = y ∧ x' = x
    · simp [hxy]
    · simp [hxy]
  rw [hch, hfgc]
  rfl

theorem shift_congr {R' : ℤ → ℤ → Bool} (h : ∀ y x, R y x = R' y x) (T : Text) :
    T.shift R = T.shift R' := by
  rw [show R = R' from funext₂ h]

theorem shift_nowhere (T : Text) : T.shift nowhere = T := rfl

/-- A cell of the loop that moves the rows. -/
theorem sure_copyCell (h : InGrid d x y) (h' : InGrid d x (y + 1)) (hR : R (y + 1) x = false) :
    Sure (Reads (T.shift R)) (do
      touch (y + 1) x
      touch y x
      modify fun s =>
      { s with ch := setAt s.ch y x (s.ch (y + 1) x), fgc := setAt s.fgc y x (s.fgc (y + 1) x) })
      (Reads (T.shift (also R y x))) :=
  .bind (sure_touch h') fun _ => .bind (sure_touch h) fun _ => .modify fun s hs => by
    have hcx : s.cx = T.cx := congrArg Text.cx hs
    have hcy : s.cy = T.cy := congrArg Text.cy hs
    have hfg : s.fg = T.fg := congrArg Text.fg hs
    rw [Reads, ← shift_also hR, ← hs, ← hcx, ← hcy, ← hfg]
    rfl

/-- **The rows go up by one.** -/
theorem sure_copyRows (hc : 0 ≤ cols d) (hr : 0 < rows d) :
    Sure (Reads T) ((between 0 (rows d - 1)).forM fun y => (between 0 (cols d)).forM fun x => do
      touch (y + 1) x
      touch y x
      modify fun s =>
      { s with ch := setAt s.ch y x (s.ch (y + 1) x), fgc := setAt s.fgc y x (s.fgc (y + 1) x) })
      (Reads (T.shift (band d 0 (rows d - 1)))) := by
  have hrow : ∀ y, 0 ≤ y → y < rows d - 1 → Sure (Reads (T.shift (either nowhere (band d 0 y))))
      ((between 0 (cols d)).forM fun x => do
        touch (y + 1) x
        touch y x
        modify fun s =>
          { s with
            ch := setAt s.ch y x (s.ch (y + 1) x), fgc := setAt s.fgc y x (s.fgc (y + 1) x) })
      (Reads (T.shift (either nowhere (band d 0 (y + 1))))) := by
    intro y hy hy'
    refine (sure_between (I :=
      fun i => Reads (T.shift (either (either nowhere (band d 0 y)) (span y 0 i)))) hc
      fun x hx hx' => ?_).mono (fun s hs => ?_) fun s hs => ?_
    · have hbelow : either (either nowhere (band d 0 y)) (span y 0 x) (y + 1) x = false := by
        simp [either, nowhere, band, span]
      refine (sure_copyCell ⟨⟨hx, hx'⟩, hy, by omega⟩ ⟨⟨hx, hx'⟩, by omega, by omega⟩ hbelow).mono
        (fun _ => id)
        fun s hs => ?_
      rw [shift_congr (also_either_span hx _ _)] at hs
      exact hs
    · rw [shift_congr (either_span_nil le_rfl _ _)]
      exact hs
    · rw [shift_congr (either_band_span hy nowhere)] at hs
      exact hs
  refine (sure_between (I := fun y => Reads (T.shift (either nowhere (band d 0 y))))
    (by omega) hrow).mono
    (fun s hs => ?_) fun s hs => hs
  rw [shift_congr (either_band_nil le_rfl nowhere), shift_nowhere]
  exact hs

/-- **What `newline` does behind the last row.** -/
theorem sure_scroll_text (hc : 0 ≤ cols d) (hr : 0 < rows d)
    (h : 0 ≤ s.curX → InGrid d s.curX s.curY) :
    Sure (· = s) (scroll d) (Reads (s.text.scroll d)) := by
  refine .get_bind fun t ht => ?_
  subst ht
  refine .bind (Q := Reads t.text) (.ite (fun hcur => ?_) fun _ => .pure
    fun u hu => hu ▸ rfl) fun _ =>
    .bind (sure_copyRows hc hr) fun _ =>
    .bind (Q := Reads { t.text.shift (band d 0 (rows d - 1)) with cy := rows d - 1 })
      (.modify fun u hu => ?_)
      fun _ => ?_
  · exact .bind ((sure_paint_text (h hcur)).mono (fun u hu => hu ▸ rfl) fun _ => id) fun _ =>
      .modify fun u hu => hu
  · rw [Reads, ← hu]
    rfl
  · exact sure_blankRow_text ⟨by omega, by omega⟩ hc

theorem sure_newline_text (hc : 0 < cols d) (hr : 0 < rows d) (hlow : rows d ≤ s.cy + 1)
    (h : 0 ≤ s.curX → InGrid d s.curX s.curY) :
    Sure (· = s) (newline d) (Reads { s.text.scroll d with cx := 0 }) := by
  have hscroll := (sure_scroll (s := { s with cx := 0, cy := s.cy + 1 }) hr h).both
    (sure_scroll_text (s := { s with cx := 0, cy := s.cy + 1 }) hc.le hr h)
  refine .bind (Q := (· = { s with cx := 0, cy := s.cy + 1 }))
    (.modify fun t ht => ht ▸ rfl) fun _ =>
    .get_bind fun t ht => ?_
  subst ht
  refine .bind (.ite (fun _ => hscroll) fun hno => absurd hlow hno) fun _ => fun t ht => ?_
  have hgrid : OnGrid d t := by
    refine ⟨⟨?_, ?_⟩, fun hcur => absurd ht.1.2.2 (not_lt.mpr hcur)⟩
    · rw [ht.1.1]
      exact ⟨le_rfl, hc⟩
    · rw [ht.1.2.1]
      omega
  exact (sure_repaintCursor_text hgrid).mono (fun _ => id) (fun u hu => hu.trans ht.2) t rfl

/-- **What a character does to the text.** -/
theorem sure_draw_text (hs : OnGrid d s) (c : UInt8) : Sure (· = s) (draw d c)
    (Reads (s.text.draw d c)) := by
  obtain ⟨⟨hx, hx'⟩, hy, hy'⟩ := hs.cursor
  have hc : 0 < cols d := by omega
  have hr : 0 < rows d := by omega
  let s₁ : Screen := { s with
    ch := setAt s.ch s.cy s.cx c
    fgc := setAt s.fgc s.cy s.cx s.fg
    used := if s.used < s.cy + 1 then s.cy + 1 else s.used }
  let s₂ : Screen := { s₁.painted d s.cx s.cy with cx := s.cx + 1 }
  refine .get_bind fun t ht => ?_
  subst ht
  refine .bind (sure_touch hs.cursor) fun _ => .bind (Q := (· = s₁))
    (.modify fun u hu => hu ▸ rfl) fun _ =>
    .bind (sure_paint_eq hs.cursor) fun _ => .bind (Q := (· = s₂))
      (.modify fun u hu => hu ▸ rfl) fun _ =>
    .get_bind fun u hu => ?_
  subst hu
  rw [Text.draw, Text.advance]
  refine .ite (fun hwrap => ?_) fun hin => ?_
  · have hwrap : cols d ≤ t.cx + 1 := hwrap
    rw [if_neg (show ¬ (t.text.set c).cx + 1 < cols d from not_lt.mpr hwrap)]
    refine .bind (Q := (· = { s₂ with cx := 0, cy := t.cy + 1 })) (.modify fun v hv => ?_) fun _ =>
      .get_bind fun v hv => ?_
    · subst hv
      rfl
    subst hv
    refine .ite (fun hlow => ?_) fun hin => ?_
    · have hlow : rows d ≤ t.cy + 1 := hlow
      rw [if_neg (show ¬ (t.text.set c).cy + 1 < rows d from not_lt.mpr hlow)]
      exact sure_newline_text hc hr (show rows d ≤ t.cy + 1 + 1 by omega) hs.block
    · have hin : ¬ rows d ≤ t.cy + 1 := hin
      rw [if_pos (show (t.text.set c).cy + 1 < rows d from not_le.mp hin)]
      exact sure_repaintCursor_text ⟨⟨⟨le_rfl, hc⟩, by show 0 ≤ t.cy + 1; omega,
        not_le.mp hin⟩, hs.block⟩
  · have hin : ¬ cols d ≤ t.cx + 1 := hin
    rw [if_pos (show (t.text.set c).cx + 1 < cols d from not_le.mp hin)]
    exact sure_repaintCursor_text ⟨⟨⟨by show 0 ≤ t.cx + 1; omega, not_le.mp hin⟩, hy, hy'⟩,
      hs.block⟩

/-- **What a backspace does to the text.** -/
theorem sure_back_text (hs : OnGrid d s) : Sure (· = s) (plain d 8) (Reads (s.text.back d)) := by
  obtain ⟨⟨hx, hx'⟩, hy⟩ := hs.cursor
  let s₁ : Screen := { s with cx := if 0 < s.cx then s.cx - 1 else s.cx }
  have hs₁ : OnGrid d s₁ := by
    refine ⟨⟨?_, hy⟩, hs.block⟩
    show 0 ≤ (if 0 < s.cx then s.cx - 1 else s.cx) ∧ (if 0 < s.cx then s.cx - 1 else s.cx) < cols d
    split <;> omega
  refine .get_bind fun t ht => ?_
  subst ht
  rw [if_neg (by decide), if_neg (by decide), if_neg (by decide), if_pos rfl]
  refine .bind (Q := (· = s₁)) (.modify fun u hu => hu ▸ rfl) fun _ => .get_bind fun u hu => ?_
  subst hu
  refine .bind (Q := (· = (s₁.blanked s₁.cx s₁.cy).painted d s₁.cx s₁.cy))
    (.bind (sure_touch hs₁.cursor) fun _ =>
    .bind (Q := (· = s₁.blanked s₁.cx s₁.cy)) (.modify fun u hu => hu ▸ rfl)
      fun _ => sure_paint_eq hs₁.cursor) fun _ => ?_
  exact sure_draw_text (s := (s₁.blanked s₁.cx s₁.cy).painted d s₁.cx s₁.cy)
    ⟨hs₁.cursor, hs₁.block⟩ 8

/-! ## Bytes -/

/-- A byte that is drawn or goes back. -/
def Shown (c : UInt8) : Prop := c = 8 ∨ 0x20 ≤ c

instance (c : UInt8) : Decidable (Shown c) := inferInstanceAs (Decidable (_ ∨ _))

/-- What it does to the text. -/
def Text.feed (d : Display) (t : Text) (c : UInt8) : Text := if c = 8 then t.back d else t.draw d c

theorem sure_plain_text (hs : OnGrid d s) (hc : Shown c) : Sure (· = s) (plain d c)
    (Reads (s.text.feed d c)) := by
  rw [Text.feed]
  by_cases h8 : c = 8
  · rw [if_pos h8, h8]
    exact sure_back_text hs
  · have hne : ∀ b : UInt8, b < 0x20 → c ≠ b := by
      rintro b hb rfl
      exact absurd (UInt8.lt_of_le_of_lt (hc.resolve_left h8) hb) (UInt8.lt_irrefl _)
    rw [if_neg h8]
    refine .get_bind fun t ht => ?_
    subst ht
    rw [if_neg (hne _ (by decide)), if_neg (hne _ (by decide)),
      if_neg (hne _ (by decide)), if_neg h8]
    exact sure_draw_text hs c

/-- **One byte.** -/
theorem putchar_text (hs : k.esc.state = .plain) (hk : OnGrid d k.screen) (hc : Shown c) :
    ∃ k', putchar d c k = some k' ∧ k'.esc.state = .plain ∧ OnGrid d k'.screen ∧
      k'.screen.text = k.screen.text.feed d c := by
  obtain ⟨⟨hx, hx'⟩, hy, hy'⟩ := hk.cursor
  have hesc : c ≠ 0x1B := by
    rintro rfl
    exact absurd hc (by decide)
  have hgrid : Sure (· = k.screen) (plain d c) (OnGrid d) :=
    (sure_plain (by omega) (by omega) c).mono (fun s h => h ▸ hk) fun _ => id
  obtain ⟨k', hrun, ⟨hk', htext⟩, hstate⟩ :=
    onScreen_of_sure (k := k) (hgrid.both (sure_plain_text hk hc)) rfl
  refine ⟨k', ?_, by rw [hstate, hs], hk', htext⟩
  rw [putchar, if_neg (not_not_intro hs), if_neg hesc]
  exact hrun

/-- **Some bytes.** -/
theorem puts_text (hs : k.esc.state = .plain) (hk : OnGrid d k.screen) {l : List UInt8}
    (hl : ∀ c ∈ l, Shown c) :
    ∃ k', puts d l k = some k' ∧ k'.esc.state = .plain ∧ OnGrid d k'.screen ∧
      k'.screen.text = l.foldl (Text.feed d) k.screen.text := by
  induction l generalizing k with
  | nil => exact ⟨k, rfl, hs, hk, rfl⟩
  | cons c l ih =>
    obtain ⟨k₁, hput, hs₁, hk₁, htext₁⟩ := putchar_text hs hk (hl c List.mem_cons_self)
    obtain ⟨k₂, hputs, hs₂, hk₂, htext₂⟩ := ih hs₁ hk₁ fun b hb => hl b (List.mem_cons_of_mem c hb)
    refine ⟨k₂, ?_, hs₂, hk₂, ?_⟩
    · rw [puts, List.foldlM_cons, hput]
      exact hputs
    · rw [htext₂, htext₁]
      rfl

/-! ## What erasing should do -/

/-- What `tty_input` echoes for an erase character. -/
def eraseEcho : List UInt8 := [0x08, 0x20, 0x08]

/-- A character that can be typed and is shown as it is. -/
def Printable (c : UInt8) : Prop := 0x20 ≤ c ∧ c < 0x7F

/-- The cursor is where it was, its cell is blank, and every other one is as it was. -/
structure Text.Restored (d : Display) (t t' : Text) : Prop where
  /-- The cursor is in its column, -/
  cx : t'.cx = t.cx
  /-- and in its row. -/
  cy : t'.cy = t.cy
  /-- The cell is blank. -/
  blank : t'.cell t.cy t.cx = (32, t.fg)
  /-- No other cell has changed. -/
  others : ∀ x y, InGrid d x y → ¬ (x = t.cx ∧ y = t.cy) → t'.cell y x = t.cell y x

/-- **Erasing a character restores the screen.** -/
def Restores (d : Display) (k : Console) (c : UInt8) : Prop :=
  ∃ k', puts d (c :: eraseEcho) k = some k' ∧ k.screen.text.Restored d k'.screen.text

/-- **Erasing all that was typed takes the cursor back.** -/
def Returns (d : Display) (k : Console) (l : List UInt8) : Prop :=
  ∃ k', puts d (l ++ (List.replicate l.length eraseEcho).flatten) k = some k' ∧
    k'.screen.cx = k.screen.cx ∧
    k'.screen.cy = k.screen.cy

/-- The screen has three columns and the cursor is in the middle of the last row, so that the rows
go up by one, and nothing of this can be seen: every cell already holds what it is going to hold. -/
structure Coincides (d : Display) (t : Text) : Prop where
  cols : cols d = 3
  cx : t.cx = 1
  cy : t.cy = rows d - 1
  cells : ∀ x y, InGrid d x y → ¬ (x = 1 ∧ y = rows d - 1) → t.cell y x = (if x = 2 then 32
    else 8, t.fg)

theorem shown_of_printable (hc : Printable c) : Shown c := Or.inr hc.1

theorem shown_eraseEcho : ∀ c ∈ eraseEcho, Shown c := by
  simp [eraseEcho, Shown]

/-! ## What it does -/

namespace Text

variable {t : Text}

theorem set_set (b c : UInt8) (t : Text) : (t.set b).set c = t.set c := by
  have hch : setAt (setAt t.ch t.cy t.cx b) t.cy t.cx c = setAt t.ch t.cy t.cx c := by
    funext y x
    by_cases h : y = t.cy ∧ x = t.cx <;> simp [setAt, h]
  have hfgc : setAt (setAt t.fgc t.cy t.cx t.fg) t.cy t.cx t.fg = setAt t.fgc t.cy t.cx t.fg := by
    funext y x
    by_cases h : y = t.cy ∧ x = t.cx <;> simp [setAt, h]
  show Text.mk (setAt (setAt t.ch t.cy t.cx b) t.cy t.cx c)
    (setAt (setAt t.fgc t.cy t.cx t.fg) t.cy t.cx t.fg)
    _ _ _ = _
  rw [hch, hfgc]
  rfl

theorem draw_of_lt (h : t.cx + 1 < cols d) (c : UInt8) :
    t.draw d c = { t.set c with cx := t.cx + 1 } := by
  rw [draw, advance, if_pos (show (t.set c).cx + 1 < cols d from h)]
  rfl

/-- **A character and a backspace**: the backspace is the character now, and the cursor is behind
it. -/
theorem back_draw (hx : 0 ≤ t.cx) (h : t.cx + 1 < cols d) (c : UInt8) :
    (t.draw d c).back d = { t.set 8 with cx := t.cx + 1 } := by
  have hback : (if 0 < t.cx + 1 then t.cx + 1 - 1 else t.cx + 1) = t.cx := by
    rw [if_pos (by omega), Int.add_sub_cancel]
  rw [draw_of_lt h, back]
  show (({ t.set c with cx := if 0 < t.cx + 1 then t.cx + 1 - 1 else t.cx + 1 } : Text).set 32).draw
    d 8 = _
  rw [hback]
  show (((t.set c).set 32)).draw d 8 = _
  rw [set_set, draw_of_lt (t := t.set 32) h, set_set]
  rfl

/-- The text when a character has been typed and erased. -/
theorem feed_erase (hx : 0 ≤ t.cx) (h : t.cx + 1 < cols d) (hc : Printable c) :
    (c :: eraseEcho).foldl (feed d) t =
    (({ t.set 8 with cx := t.cx + 1 } : Text).draw d 32).back d := by
  have h8 : c ≠ 8 := by
    rintro rfl
    exact absurd hc.1 (by decide)
  have h32 : (32 : UInt8) ≠ 8 := by decide
  simp only [eraseEcho, List.foldl_cons, List.foldl_nil, feed, if_true, if_neg h32,
    if_neg h8, back_draw hx h]

/-- A backspace at the start of a row. -/
theorem back_of_zero (h0 : t.cx = 0) (hc : 1 < cols d) : t.back d = { t.set 8 with cx := 1 } := by
  have hback : (if 0 < t.cx then t.cx - 1 else t.cx) = t.cx := if_neg (by omega)
  rw [back, hback]
  show (t.set 32).draw d 8 = _
  rw [draw_of_lt (t := t.set 32) (show t.cx + 1 < cols d by omega), set_set]
  show ({ t.set 8 with cx := t.cx + 1 } : Text) = _
  rw [h0]
  rfl

theorem cell_set (c : UInt8) (t : Text) (y x : ℤ) :
    (t.set c).cell y x = if y = t.cy ∧ x = t.cx then (c, t.fg) else t.cell y x := by
  show (setAt t.ch t.cy t.cx c y x, setAt t.fgc t.cy t.cx t.fg y x) = _
  by_cases h : y = t.cy ∧ x = t.cx
  · simp [setAt, h]
  · simp [setAt, h, cell]

/-- The cells when the rows have gone up. -/
theorem cell_scroll (h : InGrid d x y) (t : Text) :
    (t.scroll d).cell y x = if y = rows d - 1 then (32, t.fg) else t.cell (y + 1) x := by
  obtain ⟨⟨hx, hx'⟩, hy, hy'⟩ := h
  show (if span (rows d - 1) 0 (cols d) y x then 32
    else if band d 0 (rows d - 1) y x then t.ch (y + 1) x else t.ch y x,
    if span (rows d - 1) 0 (cols d) y x then t.fg
      else if band d 0 (rows d - 1) y x then t.fgc (y + 1) x else t.fgc y x) = _
  by_cases hlast : y = rows d - 1
  · simp [span, hlast, hx, hx']
  · have hlt : y < rows d - 1 := by omega
    simp [span, band, hlast, hx, hx', hy, hlt, cell]

/-- **Each row is the one below it**, from the last one on. -/
theorem rows_alike {α : Type} {f : ℤ → ℤ → α} {e : ℤ → α} {m n : ℤ}
    (hm : ∀ x, 0 ≤ x → x < n → x ≠ 1 → f m x = e x)
    (hup : ∀ y x, 0 ≤ y → y < m → 0 ≤ x → x < n → f y x = if y + 1 = m then e x else f (y + 1) x) :
    ∀ x y, 0 ≤ x → x < n → 0 ≤ y → y ≤ m → ¬ (x = 1 ∧ y = m) → f y x = e x := by
  intro x y hx hx' hy hy' hne
  obtain ⟨k, hk⟩ : ∃ k : ℕ, m - y = k := ⟨(m - y).toNat, by omega⟩
  induction k generalizing y with
  | zero =>
    obtain rfl : y = m := by omega
    exact hm x hx hx' fun h1 => hne ⟨h1, rfl⟩
  | succ k ih =>
    rw [hup y x hy (by omega) hx hx']
    split
    · rfl
    · next hlast => exact ih (y + 1) (by omega) (by omega) (fun h => hlast h.2) (by omega)

/-- The cells when the rows went up at the end of the screen, and the backspace is in the first
column. -/
theorem cell_final (h : InGrid d x y) (hlast : t.cy = rows d - 1) :
    ((({ (({ t.set 8 with cx := t.cx + 1 } : Text).set 32).scroll d with cx := 0 } : Text).set
      8).cell y x) =
      if y = t.cy then (if x = 0 then 8 else 32, t.fg)
      else if y + 1 = t.cy ∧ x = t.cx + 1 then (32, t.fg)
      else if y + 1 = t.cy ∧ x = t.cx then (8, t.fg)
      else t.cell (y + 1) x := by
  have hscroll := cell_scroll h (({ t.set 8 with cx := t.cx + 1 } : Text).set 32)
  rw [cell_set]
  show (if y = rows d - 1 ∧ x = 0 then (8, t.fg) else
    ((({ t.set 8 with cx := t.cx + 1 } : Text).set 32).scroll d).cell y x) =
    _
  rw [hscroll, cell_set, ← hlast]
  show (if y = t.cy ∧ x = 0 then (8, t.fg) else if y = t.cy then (32, t.fg)
    else if y + 1 = t.cy ∧ x = t.cx + 1 then (32, t.fg) else (t.set 8).cell (y + 1) x) = _
  rw [cell_set]
  by_cases hy : y = t.cy
  · by_cases hx : x = 0 <;> simp [hy, hx]
  · simp [hy]

/-- **A screen that is restored** is one on which nothing can be seen. -/
theorem restored_iff (hx : 0 ≤ t.cx) (hx' : t.cx + 1 < cols d) (hy : 0 ≤ t.cy)
    (hy' : t.cy < rows d) :
    t.Restored d ((({ t.set 8 with cx := t.cx + 1 } : Text).draw d 32).back d) ↔ Coincides d t := by
  by_cases hA : t.cx + 1 + 1 < cols d
  · rw [back_draw (t := { t.set 8 with cx := t.cx + 1 }) (by show 0 ≤ t.cx + 1; omega) hA]
    refine iff_of_false (fun h => ?_) fun h => ?_
    · have := h.cx
      change t.cx + 1 + 1 = t.cx at this
      omega
    · rw [h.cols, h.cx] at hA
      exact absurd hA (by decide)
  · have hwrap : ¬ ((({ t.set 8 with cx := t.cx + 1 } : Text).set 32)).cx + 1 < cols d := hA
    by_cases hB : t.cy + 1 < rows d
    · rw [draw, advance, if_neg hwrap,
        if_pos (show (({ t.set 8 with cx := t.cx + 1 } : Text).set 32).cy + 1 < rows d from hB),
        back_of_zero rfl (by omega)]
      refine iff_of_false (fun h => ?_) fun h => ?_
      · have := h.cy
        change t.cy + 1 = t.cy at this
        omega
      · rw [h.cy] at hB
        omega
    · have hlast : t.cy = rows d - 1 := by omega
      rw [draw, advance, if_neg hwrap,
        if_neg (show ¬ (({ t.set 8 with cx := t.cx + 1 } : Text).set 32).cy + 1 < rows d from hB),
        back_of_zero rfl (by omega)]
      constructor
      · intro h
        have hcx : t.cx = 1 := h.cx.symm
        have hcols : cols d = 3 := by omega
        have hcell : ∀ x y, InGrid d x y → ¬ (x = 1 ∧ y = t.cy) → t.cell y x =
            if y = t.cy then (if x = 0 then 8 else 32, t.fg)
            else if y + 1 = t.cy ∧ x = 2 then (32, t.fg)
            else if y + 1 = t.cy ∧ x = 1 then (8, t.fg)
            else t.cell (y + 1) x := by
          intro x y hin hne
          have hfinal :=
            (h.others x y hin (by rw [hcx]; exact hne)).symm.trans (cell_final hin hlast)
          simp only [hcx] at hfinal
          exact hfinal
        have hrow : ∀ x, 0 ≤ x → x < 3 → x ≠ 1 → t.cell t.cy x = (if x = 2 then 32
            else 8, t.fg) := by
          intro x hx hx3 hx1
          rw [hcell x t.cy ⟨⟨hx, by omega⟩, hy, hy'⟩ fun h => hx1 h.1, if_pos rfl]
          obtain rfl | rfl : x = 0 ∨ x = 2 := by omega
          · rfl
          · rfl
        refine ⟨hcols, hcx, hlast, fun x y hin hne => ?_⟩
        obtain ⟨⟨hx, hx3⟩, hy0, hym⟩ := hin
        refine rows_alike (n := 3) hrow (fun y x hy0 hym hx hx3 => ?_) x y hx
          (by omega) hy0 (by omega)
          (by rw [hlast]; exact hne)
        rw [hcell x y ⟨⟨hx, by omega⟩, hy0, by omega⟩ (by omega), if_neg (by omega)]
        by_cases hm : y + 1 = t.cy
        · rw [if_pos hm, hm]
          obtain rfl | rfl | rfl : x = 0 ∨ x = 1 ∨ x = 2 := by omega
          · simpa using hrow 0 le_rfl (by decide) (by decide)
          · simp
          · simp
        · simp [hm]
      · intro h
        have hcx := h.cx
        refine ⟨hcx.symm, hlast.symm, ?_, fun x y hin hne => ?_⟩
        · show Text.cell (Text.set 8 _) t.cy t.cx = _
          rw [cell_final ⟨⟨hx, by omega⟩, hy, hy'⟩ hlast, if_pos rfl, hcx]
          rfl
        · show Text.cell (Text.set 8 _) y x = _
          rw [cell_final hin hlast, hcx]
          have hne : ¬ (x = 1 ∧ y = rows d - 1) := by rwa [hcx, hlast] at hne
          rw [h.cells x y hin hne]
          obtain ⟨⟨hx0, hx3⟩, hy0, hym⟩ := hin
          have hx3' : x < 3 := by rwa [h.cols] at hx3
          by_cases hm : y = t.cy
          · rw [if_pos hm]
            obtain rfl | rfl : x = 0 ∨ x = 2 := by omega
            · rfl
            · rfl
          · rw [if_neg hm]
            by_cases hm1 : y + 1 = t.cy ∧ x ≠ 0
            · obtain rfl | rfl : x = 1 ∨ x = 2 := by omega
              · simp [hm1.1]
              · simp [hm1.1]
            · rw [if_neg (by omega), if_neg (by omega)]
              exact h.cells x (y + 1) ⟨⟨hx0, hx3⟩, by omega, by omega⟩ (by omega)

end Text

/-- One character. -/
theorem restores_one_iff (hs : k.esc.state = .plain) (hk : OnGrid d k.screen)
    (hlast : k.screen.cx + 1 < cols d)
    (hc : Printable c) : Restores d k c ↔ Coincides d k.screen.text := by
  obtain ⟨⟨hx, hx'⟩, hy, hy'⟩ := hk.cursor
  have hshown : ∀ b ∈ c :: eraseEcho, Shown b := fun b hb => by
    rcases List.mem_cons.mp hb with rfl | hb
    · exact shown_of_printable hc
    · exact shown_eraseEcho b hb
  obtain ⟨k', hrun, -, -, htext⟩ := puts_text hs hk hshown
  rw [Text.feed_erase (t := k.screen.text) hx hlast hc] at htext
  rw [← Text.restored_iff (t := k.screen.text) hx hlast hy hy', ← htext]
  constructor
  · rintro ⟨k₁, hrun₁, h⟩
    obtain rfl := Option.some.inj (hrun.symm.trans hrun₁)
    exact h
  · exact fun h => ⟨k', hrun, h⟩

/-- **Erasing what was echoed restores the screen** on one screen only. -/
theorem restores_iff (hs : k.esc.state = .plain) (hk : OnGrid d k.screen)
    (hlast : k.screen.cx + 1 < cols d) :
    ((∀ c, Printable c → Restores d k c) ∧
      ∀ l : List UInt8, (∀ c ∈ l, Printable c) → k.screen.cx + l.length < cols d → Returns d k l) ↔
        Coincides d k.screen.text := by
  constructor
  · rintro ⟨h, -⟩
    exact (restores_one_iff hs hk hlast (c := 97) ⟨by decide, by decide⟩).mp
      (h 97 ⟨by decide, by decide⟩)
  · intro h
    have hone : ∀ c, Printable c → Restores d k c :=
      fun c hc => (restores_one_iff hs hk hlast hc).mpr h
    refine ⟨hone, fun l hl hfits => ?_⟩
    have hcx : k.screen.cx = 1 := h.cx
    -- There is room for no more than one character.
    have hlen : l.length < 2 := by
      rw [hcx, h.cols] at hfits
      omega
    obtain rfl | ⟨c, rfl⟩ : l = [] ∨ ∃ c, l = [c] := by
      cases l with
      | nil => exact .inl rfl
      | cons c l =>
        have hnil : l.length = 0 := by
          rw [List.length_cons] at hlen
          omega
        exact .inr ⟨c, by rw [List.length_eq_zero_iff.mp hnil]⟩
    · exact ⟨k, rfl, rfl, rfl⟩
    · have hone_echo : [c] ++ (List.replicate [c].length eraseEcho).flatten = c :: eraseEcho := by
        simp
      obtain ⟨k', hrun, hrest⟩ := hone c (hl c List.mem_cons_self)
      rw [Returns, hone_echo]
      exact ⟨k', hrun, hrest.cx, hrest.cy⟩

/-- The start of the first row of a screen with four columns. -/
theorem restores_start :
    ((∀ c, Printable c → Restores ⟨32, 16, fun _ _ => 0⟩ (powerOn (fun _ => 0) fun _ _ => 0) c) ∧
      ∀ l : List UInt8, (∀ c ∈ l, Printable c) →
        (powerOn (fun _ => 0) fun _ _ => 0).screen.cx + l.length < cols ⟨32, 16, fun _ _ => 0⟩ →
          Returns ⟨32, 16, fun _ _ => 0⟩ (powerOn (fun _ => 0) fun _ _ => 0) l) ↔
        Coincides ⟨32, 16, fun _ _ => 0⟩ (powerOn (fun _ => 0) fun _ _ => 0).screen.text :=
  restores_iff rfl (onGrid_powerOn (by decide) (by decide)) (by decide)

/-- There, the cursor is two columns further when a letter has been typed and erased. -/
theorem not_restores_letter :
    ¬ Restores ⟨32, 16, fun _ _ => 0⟩ (powerOn (fun _ => 0) fun _ _ => 0) 97 := by
  rintro ⟨k, hrun, h⟩
  have hcx : (puts ⟨32, 16, fun _ _ => 0⟩ (97 :: eraseEcho) (powerOn (fun _ => 0) fun _ _ => 0)).map
      (fun k => k.screen.cx) = some 2 := by decide +kernel
  rw [hrun] at hcx
  have hback : k.screen.cx = 0 := h.cx
  rw [Option.map_some, hback] at hcx
  exact absurd hcx (by decide)

end Console

end Aurisys
