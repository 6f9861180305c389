import Aurisys.Kernel.Echo

/-!
# The screen is a window on the paper

What is printed can be thought of as going onto paper that is as wide as the screen and as long as
it takes. A line that is full is followed by another one right away, without waiting for the next
character.

The screen shows the end of the paper: the last lines, as many as there are rows. This is shown of
the text on the screen, for bytes that are printed and for newlines. Where nothing has been printed
the array may have zeroes from the start of the kernel, or blanks; both look alike.

## Main definitions

* `Paper`, `Paper.put` — the lines, and what a byte does to them
* `Window` — the screen shows the end of the paper

## Main results

* `Window.feed` — one byte
* `puts_from` — any number of them
* `puts_window` — from an empty screen
-/

namespace Aurisys

open Fallible

namespace Console

variable {d : Display} {s : Screen} {k : Console} {t : Text} {c : UInt8} {w : ℕ}

/-! ## The paper -/

/-- The lines that are finished, and the one that is not. -/
structure Paper where
  done : List (List UInt8)
  cur : List UInt8
deriving DecidableEq

namespace Paper

def lines (p : Paper) : List (List UInt8) := p.done ++ [p.cur]

/-- The next line. -/
def feed (p : Paper) : Paper := ⟨p.done ++ [p.cur], []⟩

/-- A byte on paper of `w` columns. -/
def put (w : ℕ) (p : Paper) (c : UInt8) : Paper :=
  if c = 0x0A then p.feed
  else if p.cur.length + 1 < w then ⟨p.done, p.cur ++ [c]⟩ else feed ⟨p.done, p.cur ++ [c]⟩

variable {p : Paper}

theorem flatten_put (w : ℕ) (p : Paper) (c : UInt8) :
    (p.put w c).lines.flatten = p.lines.flatten ++ if c = 0x0A then [] else [c] := by
  rw [put]
  split
  · simp [lines, feed]
  · split <;> simp [lines, feed]

/-- **Nothing is lost**: the lines are the bytes without the newlines, in order. -/
theorem flatten_lines (w : ℕ) (l : List UInt8) :
    (l.foldl (put w) ⟨[], []⟩).lines.flatten = l.filter (· ≠ 0x0A) := by
  induction l using List.reverseRecOn with
  | nil => rfl
  | append_singleton l c ih =>
    rw [List.foldl_append, List.foldl_cons, List.foldl_nil, flatten_put, ih, List.filter_append]
    by_cases hc : c = 0x0A <;> simp [hc]

/-- The lines in front of the current one have been finished. -/
theorem lines_getElem?_of_lt {i : ℕ} (h : i < p.done.length) : p.lines[i]? = p.done[i]? :=
  List.getElem?_append_left h

theorem lines_getElem?_self : p.lines[p.done.length]? = some p.cur := by
  rw [lines, List.getElem?_append_right le_rfl, Nat.sub_self]
  rfl

theorem lines_getElem?_of_gt {i : ℕ} (h : p.done.length < i) : p.lines[i]? = none := by
  rw [List.getElem?_eq_none_iff, lines, List.length_append, List.length_singleton]
  exact h

end Paper

/-! ## The window -/

/-- There is nothing to be seen. -/
def Empty (c : UInt8) : Prop := c = 0 ∨ c = 32

/-- How many rows the screen has, and how many columns. -/
def height (d : Display) : ℕ := (rows d).toNat

def width (d : Display) : ℕ := (cols d).toNat

/-- How many lines of the paper have gone out at the top. -/
def Paper.top (p : Paper) (n : ℕ) : ℕ := p.done.length + 1 - n

/-- The byte of the paper that is at a place of the screen, if there is one. -/
def Paper.at (p : Paper) (n y x : ℕ) : Option UInt8 := p.lines[p.top n + y]? >>= fun row => row[x]?

/-- What is seen of a byte of the paper. -/
def Seen : Option UInt8 → UInt8 → Prop
  | some c, b => b = c
  | none, b => Empty b

/-- The rows of the screen are the last lines, and the cursor is in the last one. -/
structure Rows (d : Display) (t : Text) (p : Paper) : Prop where
  cy : t.cy + p.top (height d) = p.done.length
  cells : ∀ y x : ℕ, y < height d → x < width d → Seen (p.at (height d) y x) (t.ch y x)

/-- **The screen shows the end of the paper**, and the cursor is where the next byte will be. -/
structure Window (d : Display) (t : Text) (p : Paper) : Prop extends Rows d t p where
  cx : t.cx = p.cur.length
  fits : p.cur.length < width d

/-- What a newline does. -/
def Text.newline (d : Display) (t : Text) : Text :=
  if t.cy + 1 < rows d then { t with cx := 0, cy := t.cy + 1 } else { t.scroll d with cx := 0 }

/-- What a byte does that is printed, or is a newline. -/
def Text.type (d : Display) (t : Text) (c : UInt8) : Text :=
  if c = 0x0A then t.newline d else t.draw d c

theorem Text.draw_eq (d : Display) (t : Text) (c : UInt8) : t.draw d c =
    if t.cx + 1 < cols d then { t.set c with cx := t.cx + 1 } else (t.set c).newline d := by
  rw [Text.draw, Text.advance, Text.newline]
  rfl

theorem Paper.lines_feed (p : Paper) : p.feed.lines = p.lines ++ [[]] := rfl

/-- An empty line has nothing at any place. -/
theorem at_append_nil (ls : List (List UInt8)) (i x : ℕ) :
    ((ls ++ [[]])[i]? >>= fun row => row[x]?) = ls[i]? >>= fun row => row[x]? := by
  rcases Nat.lt_trichotomy i ls.length with h | rfl | h
  · rw [List.getElem?_append_left h]
  · rw [List.getElem?_append_right le_rfl, Nat.sub_self, List.getElem?_eq_none le_rfl]
    rfl
  · rw [List.getElem?_append_right h.le, List.getElem?_eq_none (by simp; omega),
      List.getElem?_eq_none h.le]

variable {p : Paper}

theorem Rows.cy_lt (h : Rows d t p) (hr : 0 < rows d) : 0 ≤ t.cy ∧ t.cy < rows d := by
  have hcy := h.cy
  have hheight : (height d : ℤ) = rows d := Int.toNat_of_nonneg hr.le
  rw [Paper.top] at hcy
  omega

/-- **The next line.** -/
theorem Rows.newline (h : Rows d t p) (hr : 0 < rows d) (hc : 0 < cols d) :
    Window d (t.newline d) p.feed := by
  have hheight : (height d : ℤ) = rows d := Int.toNat_of_nonneg hr.le
  have hwidth : (width d : ℤ) = cols d := Int.toNat_of_nonneg hc.le
  have hcy := h.cy
  have hlen : p.feed.done.length = p.done.length + 1 := List.length_append
  rw [Text.newline]
  split
  · next hin =>
    have htop : p.top (height d) = 0 := by
      rw [Paper.top] at hcy ⊢
      omega
    have htop' : p.feed.top (height d) = 0 := by
      rw [Paper.top] at hcy ⊢
      omega
    refine ⟨⟨?_, fun y x hy hx => ?_⟩, rfl, ?_⟩
    · show t.cy + 1 + _ = _
      rw [htop', hlen]
      rw [htop] at hcy
      omega
    · have := h.cells y x hy hx
      rw [Paper.at, htop] at this
      rw [Paper.at, htop', Paper.lines_feed, at_append_nil]
      exact this
    · show 0 < width d
      omega
  · next hlow =>
    have hcy' : t.cy = rows d - 1 := by
      have := h.cy_lt hr
      omega
    have htop : p.feed.top (height d) = p.top (height d) + 1 := by
      rw [Paper.top] at hcy ⊢
      rw [hlen, Paper.top]
      omega
    refine ⟨⟨?_, fun y x hy hx => ?_⟩, rfl, ?_⟩
    · show rows d - 1 + _ = _
      rw [htop, hlen]
      omega
    · rw [Paper.at, htop, Paper.lines_feed, at_append_nil]
      show Seen _ (if span (rows d - 1) 0 (cols d) y x then 32
        else if band d 0 (rows d - 1) y x then t.ch (y + 1) x else t.ch y x)
      by_cases hlast : (y : ℤ) = rows d - 1
      · have hspan : span (rows d - 1) 0 (cols d) y x = true := by
          simp only [span, decide_eq_true_eq]
          omega
        have hnone : p.lines[p.top (height d) + 1 + y]? = none := by
          refine Paper.lines_getElem?_of_gt ?_
          omega
        rw [if_pos hspan, hnone]
        exact Or.inr rfl
      · have hspan : span (rows d - 1) 0 (cols d) y x = false := by
          simp only [span, decide_eq_false_iff_not]
          omega
        have hband : band d 0 (rows d - 1) y x = true := by
          simp only [band, decide_eq_true_eq]
          omega
        have := h.cells (y + 1) x (by omega) hx
        rw [Paper.at, ← Nat.add_assoc, Nat.add_right_comm, Nat.cast_succ] at this
        rw [hspan, hband, if_neg Bool.false_ne_true, if_pos rfl]
        exact this
    · show 0 < width d
      omega

/-- A byte at the cursor. -/
theorem Window.set (h : Window d t p) (hr : 0 < rows d) (c : UInt8) :
    Rows d (t.set c) ⟨p.done, p.cur ++ [c]⟩ := by
  have hheight : (height d : ℤ) = rows d := Int.toNat_of_nonneg hr.le
  have hcy := h.cy
  refine ⟨hcy, fun y x hy hx => ?_⟩
  have hold := h.cells y x hy hx
  have htop : Paper.top ⟨p.done, p.cur ++ [c]⟩ (height d) = p.top (height d) := rfl
  rw [Paper.at] at hold
  rw [Paper.at, htop]
  show Seen _ (setAt t.ch t.cy t.cx c y x)
  rw [setAt, h.cx]
  rcases Nat.lt_trichotomy (p.top (height d) + y) p.done.length with hlt | heq | hgt
  · rw [if_neg (by omega), Paper.lines_getElem?_of_lt (p := ⟨p.done, p.cur ++ [c]⟩) hlt]
    rwa [Paper.lines_getElem?_of_lt hlt] at hold
  · rw [heq] at hold ⊢
    rw [Paper.lines_getElem?_self] at hold
    rw [Paper.lines_getElem?_self (p := ⟨p.done, p.cur ++ [c]⟩)]
    simp only [Option.bind_eq_bind, Option.bind_some] at hold ⊢
    rcases Nat.lt_trichotomy x p.cur.length with hx | rfl | hx
    · rw [if_neg (by omega), List.getElem?_append_left hx]
      exact hold
    · rw [if_pos ⟨by omega, rfl⟩, List.getElem?_append_right le_rfl, Nat.sub_self]
      rfl
    · rw [if_neg (by omega), List.getElem?_eq_none (by simp; omega)]
      rwa [List.getElem?_eq_none hx.le] at hold
  · rw [if_neg (by omega), Paper.lines_getElem?_of_gt (p := ⟨p.done, p.cur ++ [c]⟩) hgt]
    rwa [Paper.lines_getElem?_of_gt hgt] at hold

/-- **One byte**, on the screen and on the paper. -/
theorem Window.feed (h : Window d t p) (hr : 0 < rows d) (hc : 0 < cols d) (c : UInt8) :
    Window d (t.type d c) (p.put (width d) c) := by
  have hwidth : (width d : ℤ) = cols d := Int.toNat_of_nonneg hc.le
  have hcx := h.cx
  rw [Text.type, Paper.put]
  split
  · exact h.toRows.newline hr hc
  · rw [Text.draw_eq]
    have hset := h.set hr c
    by_cases hin : t.cx + 1 < cols d
    · rw [if_pos hin, if_pos (by omega)]
      refine ⟨⟨hset.cy, hset.cells⟩, ?_, ?_⟩
      · show t.cx + 1 = ((p.cur ++ [c]).length : ℤ)
        rw [List.length_append, List.length_singleton]
        omega
      · show (p.cur ++ [c]).length < width d
        rw [List.length_append, List.length_singleton]
        omega
    · rw [if_neg hin, if_neg (by omega)]
      exact hset.newline hr hc

/-! ## The screen -/

/-- **What a newline does to the text.** -/
theorem sure_newline_type (hs : OnGrid d s) : Sure (· = s) (Console.newline d)
    (Reads (s.text.newline d)) := by
  obtain ⟨⟨hx, hx'⟩, hy, hy'⟩ := hs.cursor
  have hc : 0 < cols d := by omega
  have hr : 0 < rows d := by omega
  rw [Text.newline]
  by_cases hin : s.cy + 1 < rows d
  · rw [if_pos (show s.text.cy + 1 < rows d from hin)]
    refine .bind (Q := (· = { s with cx := 0, cy := s.cy + 1 }))
      (.modify fun t ht => ht ▸ rfl) fun _ =>
      .get_bind fun t ht => ?_
    subst ht
    refine .bind (Q := (· = { s with cx := 0, cy := s.cy + 1 })) (.ite (fun hlow => ?_)
      fun _ => .pure fun _ => id)
      fun _ => ?_
    · exact absurd hin (not_lt.mpr hlow)
    · exact sure_repaintCursor_text (s := { s with cx := 0, cy := s.cy + 1 })
        ⟨⟨⟨le_rfl, hc⟩, show 0 ≤ s.cy + 1 by omega, hin⟩, hs.block⟩
  · rw [if_neg (show ¬ s.text.cy + 1 < rows d from hin)]
    exact sure_newline_text hc hr (not_lt.mp hin) hs.block

/-- A byte that is printed, or a newline. -/
def Typed (c : UInt8) : Prop := c = 0x0A ∨ 0x20 ≤ c

instance (c : UInt8) : Decidable (Typed c) := inferInstanceAs (Decidable (_ ∨ _))

theorem sure_plain_type (hs : OnGrid d s) (hc : Typed c) : Sure (· = s) (plain d c)
    (Reads (s.text.type d c)) := by
  rw [Text.type]
  by_cases hnl : c = 0x0A
  · rw [if_pos hnl]
    refine .get_bind fun t ht => ?_
    subst ht
    rw [if_pos hnl]
    exact sure_newline_type hs
  · have hne : ∀ b : UInt8, b < 0x20 → c ≠ b := by
      rintro b hb rfl
      exact absurd (UInt8.lt_of_le_of_lt (hc.resolve_left hnl) hb) (UInt8.lt_irrefl _)
    rw [if_neg hnl]
    refine .get_bind fun t ht => ?_
    subst ht
    rw [if_neg hnl, if_neg (hne _ (by decide)), if_neg (hne _ (by decide)),
      if_neg (hne _ (by decide))]
    exact sure_draw_text hs c

/-- **One byte.** -/
theorem putchar_type (hs : k.esc.state = .plain) (hk : OnGrid d k.screen) (hc : Typed c) :
    ∃ k', putchar d c k = some k' ∧ k'.esc.state = .plain ∧ OnGrid d k'.screen ∧
      k'.screen.text = k.screen.text.type d c := by
  obtain ⟨⟨hx, hx'⟩, hy, hy'⟩ := hk.cursor
  have hesc : c ≠ 0x1B := by
    rintro rfl
    exact absurd hc (by decide)
  have hgrid : Sure (· = k.screen) (plain d c) (OnGrid d) :=
    (sure_plain (by omega) (by omega) c).mono (fun s h => h ▸ hk) fun _ => id
  obtain ⟨k', hrun, ⟨hk', htext⟩, hstate⟩ :=
    onScreen_of_sure (k := k) (hgrid.both (sure_plain_type hk hc)) rfl
  refine ⟨k', ?_, by rw [hstate, hs], hk', htext⟩
  rw [putchar, if_neg (not_not_intro hs), if_neg hesc]
  exact hrun

/-- **Any number of them**, from where the paper has got to. -/
theorem puts_from (hs : k.esc.state = .plain) (hk : OnGrid d k.screen)
    (h : Window d k.screen.text p)
    {l : List UInt8} (hl : ∀ c ∈ l, Typed c) :
    ∃ k', puts d l k = some k' ∧ k'.esc.state = .plain ∧ OnGrid d k'.screen ∧
      Window d k'.screen.text (l.foldl (Paper.put (width d)) p) := by
  obtain ⟨⟨hx, hx'⟩, hy, hy'⟩ := hk.cursor
  induction l generalizing k p with
  | nil => exact ⟨k, rfl, hs, hk, h⟩
  | cons c l ih =>
    obtain ⟨k₁, hput, hs₁, hk₁, htext₁⟩ := putchar_type hs hk (hl c List.mem_cons_self)
    have h₁ := htext₁ ▸ h.feed (by omega) (by omega) c
    obtain ⟨⟨hx₁, hx₁'⟩, hy₁, hy₁'⟩ := hk₁.cursor
    obtain ⟨k₂, hputs, hs₂, hk₂, h₂⟩ :=
      ih hs₁ hk₁ h₁ (fun b hb => hl b (List.mem_cons_of_mem c hb)) hx₁ hx₁' hy₁ hy₁'
    refine ⟨k₂, ?_, hs₂, hk₂, h₂⟩
    rw [puts, List.foldlM_cons, hput]
    exact hputs

/-- Nothing has been printed. -/
theorem window_start (hk : OnGrid d k.screen) (hcx : k.screen.cx = 0) (hcy : k.screen.cy = 0)
    (hempty : ∀ x y, InGrid d x y → Empty (k.screen.ch y x)) : Window d k.screen.text ⟨[], []⟩ := by
  obtain ⟨⟨hx, hx'⟩, hy, hy'⟩ := hk.cursor
  have hheight : (height d : ℤ) = rows d := Int.toNat_of_nonneg (by omega)
  have hwidth : (width d : ℤ) = cols d := Int.toNat_of_nonneg (by omega)
  have htop : Paper.top ⟨[], []⟩ (height d) = 0 := by
    rw [Paper.top, List.length_nil]
    omega
  refine ⟨⟨?_, fun y x hy hx => ?_⟩, hcx, ?_⟩
  · show k.screen.cy + _ = _
    rw [htop, hcy]
    rfl
  · have hnone : Paper.at ⟨[], []⟩ (height d) y x = none := by
      rw [Paper.at, htop]
      cases y <;> rfl
    rw [hnone]
    exact hempty x y ⟨⟨by omega, by omega⟩, by omega, by omega⟩
  · show 0 < width d
    omega

/-- **The screen is a window on the paper**: whatever has been printed on an empty screen, what is
seen is the end of it, and none of it has been lost on the paper. -/
theorem puts_window (hs : k.esc.state = .plain) (hk : OnGrid d k.screen) (hcx : k.screen.cx = 0)
    (hcy : k.screen.cy = 0) (hempty : ∀ x y, InGrid d x y → Empty (k.screen.ch y x))
    {l : List UInt8}
    (hl : ∀ c ∈ l, Typed c) :
    (l.foldl (Paper.put (width d)) ⟨[], []⟩).lines.flatten = l.filter (· ≠ 0x0A) ∧
      ∃ k', puts d l k = some k' ∧ k'.esc.state = .plain ∧ OnGrid d k'.screen ∧
        Window d k'.screen.text (l.foldl (Paper.put (width d)) ⟨[], []⟩) :=
  ⟨Paper.flatten_lines _ l, puts_from hs hk (window_start hk hcx hcy hempty) hl⟩

/-- A letter, a newline and a letter on a screen of one column and two rows. -/
theorem puts_window_small :
    (([65, 0x0A, 66] : List UInt8).foldl (Paper.put (width ⟨8, 32, fun _ _ => 0⟩)) ⟨[],
      []⟩).lines.flatten =
        ([65, 0x0A, 66] : List UInt8).filter (· ≠ 0x0A) ∧
      ∃ k', puts ⟨8, 32, fun _ _ => 0⟩ [65, 0x0A, 66]
      (powerOn (fun _ => 0) fun _ _ => 0) = some k' ∧
        k'.esc.state = .plain ∧ OnGrid ⟨8, 32, fun _ _ => 0⟩ k'.screen ∧ Window ⟨8, 32,
          fun _ _ => 0⟩ k'.screen.text
          (([65, 0x0A, 66] : List UInt8).foldl (Paper.put (width ⟨8, 32, fun _ _ => 0⟩)) ⟨[],
            []⟩) :=
  puts_window rfl (onGrid_powerOn (by decide) (by decide)) rfl rfl (fun _ _ _ => .inl rfl)
    (by simp [Typed])

end Console

end Aurisys
