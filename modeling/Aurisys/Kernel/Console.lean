import Aurisys.Lib.Fallible
import Mathlib.Data.Int.Bitwise
import Mathlib.Data.Int.Range
import Mathlib.Logic.Function.Basic

/-!
# The console

`console.cpp` keeps what is on the screen as a grid of characters with their colours, and draws each
cell on the framebuffer when it changes. The arrays have 72 rows of 200 cells. Every access to them
goes through `touch`, which fails behind their ends, so a byte that is put without a failure has
stayed inside.

What a sequence of bytes makes of the parameters of an escape sequence is in the same file of the
source: the arithmetic with them is that of 32 bit numbers.

## Main definitions

* `Console.Screen`, `Console.Escape` — what is drawn, and how far an escape sequence has come
* `Console.putchar`, `Console.run`
* `Console.OnGrid` — the cursor is on the grid

## Main results

* `Console.run_stays` — the cursor stays on the grid, and nothing outside of the arrays is used
-/

namespace Aurisys

open Fallible

/-- What the screen is like: the size of the framebuffer, and the pixels of the characters. -/
structure Display where
  width : ℕ
  height : ℕ
  /-- `font8x16_vga`: eight pixels of a row of a character. -/
  glyph : UInt8 → ℕ → UInt8

namespace Console

/-- The number that a register of 32 bits has for it. -/
def wrap (z : ℤ) : ℤ := z.bmod (2 ^ 32)

/-- The numbers of a loop from `lo` up to `hi`, without `hi`. -/
@[irreducible] def between (lo hi : ℤ) : List ℤ := Int.range lo hi

theorem mem_between {lo hi z : ℤ} : z ∈ between lo hi ↔ lo ≤ z ∧ z < hi := by
  unfold between
  exact Int.mem_range_iff

/-! ## Colours -/

def kDefaultFg : UInt32 := 0xCDD6F4

def kDefaultBg : UInt32 := 0x1E1E2E

def kAnsi : List UInt32 :=
  [0x1E1E2E, 0xF38BA8, 0xA6E3A1, 0xF9E2AF, 0x89B4FA, 0xCBA6F7, 0x94E2D5, 0xCDD6F4]

def kAnsiBright : List UInt32 :=
  [0x45475A, 0xF38BA8, 0xA6E3A1, 0xF9E2AF, 0x89B4FA, 0xCBA6F7, 0x94E2D5, 0xFFFFFF]

/-- `ansi_fg`. -/
def ansiFg (n : ℤ) (bright : Bool) : UInt32 :=
  if n < 0 ∨ 7 < n then kDefaultFg
  else if bright then kAnsiBright.getD n.toNat kDefaultFg else kAnsi.getD n.toNat kDefaultFg

def lighten (c : UInt32) : UInt32 :=
  let r := (c >>> 16) &&& 0xFF
  let g := (c >>> 8) &&& 0xFF
  let b := c &&& 0xFF
  let nr := (r + 0xFF) / 2
  let ng := (g + 0xFF) / 2
  let nb := (b + 0xFF) / 2
  (nr <<< 16) ||| (ng <<< 8) ||| nb

/-! ## The framebuffer -/

/-- The pixels, by row and column. -/
abbrev Pixels := ℤ → ℤ → UInt32

/-- `fb::clear`. -/
def fbClear (d : Display) (color : UInt32) (fb : Pixels) : Pixels := fun r k =>
  if 0 ≤ r ∧ r < d.height ∧ 0 ≤ k ∧ k < d.width then color else fb r k

/-- `fb::scroll_up`. -/
def scrollUp (d : Display) (px : ℤ) (bg : UInt32) (fb : Pixels) : Pixels :=
  if px ≤ 0 ∨ d.height ≤ px then fb
  else fun r k =>
    if 0 ≤ r ∧ r < d.height ∧ 0 ≤ k ∧ k < d.width then
      if r < d.height - px then fb (r + px) k else bg
    else fb r k

/-- `fb::fill_rect`. -/
def fillRect (d : Display) (x y w h : ℤ) (color : UInt32) (fb : Pixels) : Pixels := fun r k =>
  if (y ≤ r ∧ r < y + h ∧ 0 ≤ r ∧ r < d.height) ∧ x ≤ k ∧ k < x + w ∧ 0 ≤ k ∧ k < d.width then color
  else fb r k

/-- `fb::drawchar`. -/
def drawchar (d : Display) (x y : ℤ) (c : UInt8) (fg bg : UInt32) (fb : Pixels) : Pixels :=
  fun r k =>
  if (y ≤ r ∧ r < y + 16) ∧ x ≤ k ∧ k < x + 8 ∧ 0 ≤ k ∧ k < d.width then
    if d.glyph c (r - y).toNat &&& (0x80 >>> UInt8.ofNat (k - x).toNat) ≠ 0 then fg else bg
  else fb r k

/-! ## The grid -/

def kMaxCols : ℤ := 200

def kMaxRows : ℤ := 72

def cols (d : Display) : ℤ :=
  let n : ℤ := (d.width / 8 : ℕ)
  if n < kMaxCols then n else kMaxCols

def rows (d : Display) : ℤ :=
  let n : ℤ := (d.height / 16 : ℕ)
  if n < kMaxRows then n else kMaxRows

def clampx (d : Display) (x : ℤ) : ℤ :=
  let x := if x < 0 then 0 else x
  if cols d ≤ x then cols d - 1 else x

def clampy (d : Display) (y : ℤ) : ℤ :=
  let y := if y < 0 then 0 else y
  if rows d ≤ y then rows d - 1 else y

/-- What is remembered of the screen, and the pixels. -/
structure Screen where
  /-- `g_ch`, by row and column. -/
  ch : ℤ → ℤ → UInt8
  /-- `g_fgc`. -/
  fgc : ℤ → ℤ → UInt32
  /-- How much of the screen has ever been written to. -/
  used : ℤ
  cx : ℤ
  cy : ℤ
  /-- The cell that is drawn as a cursor block, or -1. -/
  curX : ℤ
  curY : ℤ
  cursorOn : Bool
  fg : UInt32
  bg : UInt32
  fb : Pixels

/-- What draws on the screen. It fails when it uses the arrays behind their ends. -/
abbrev Draw := Fallible Screen

/-- A table with another value at a place. -/
def setAt {α : Type} (f : ℤ → ℤ → α) (y x : ℤ) (v : α) : ℤ → ℤ → α :=
  fun y' x' => if y' = y ∧ x' = x then v else f y' x'

/-- `g_ch[y][x]` and `g_fgc[y][x]` are used. -/
def touch (y x : ℤ) : Draw Unit := guard (0 ≤ y ∧ y < kMaxRows ∧ 0 ≤ x ∧ x < kMaxCols)

/-- The cell as it is drawn. -/
def Screen.painted (d : Display) (x y : ℤ) (s : Screen) : Screen :=
  let fb := drawchar d (x * 8) (y * 16) (s.ch y x) (s.fgc y x) s.bg s.fb
  { s with
    fb := if s.cursorOn ∧ x = s.cx ∧ y = s.cy then fillRect d (x * 8) (y * 16 + 13) 8 3 s.fg fb
    else fb }

def paint (d : Display) (x y : ℤ) : Draw Unit := do
  touch y x
  modify (Screen.painted d x y)

/-- A cell is set to a blank in the colour of the text. -/
def Screen.blanked (x y : ℤ) (s : Screen) : Screen :=
  { s with ch := setAt s.ch y x 32, fgc := setAt s.fgc y x s.fg }

def blankRow (d : Display) (y : ℤ) : Draw Unit :=
  (between 0 (cols d)).forM fun x => do
    touch y x
    modify (Screen.blanked x y)

/-- How many rows have been used, and are there. -/
def Screen.usedRows (d : Display) (s : Screen) : ℤ := if rows d < s.used then rows d else s.used

def blankAll (d : Display) : Draw Unit := do
  let s ← get
  (between 0 (s.usedRows d)).forM (blankRow d)

def repaintCursor (d : Display) : Draw Unit := do
  let s ← get
  (if 0 ≤ s.curX ∧ (s.curX ≠ s.cx ∨ s.curY ≠ s.cy) then paint d s.curX s.curY else pure ())
  (if s.cursorOn then do
    paint d s.cx s.cy
    modify fun s => { s with curX := s.cx, curY := s.cy }
  else modify fun s => { s with curX := -1 })

def repaintAll (d : Display) : Draw Unit := do
  let s ← get
  (between 0 (s.usedRows d)).forM fun y => (between 0 (cols d)).forM fun x => paint d x y

def moveTo (d : Display) (x y : ℤ) : Draw Unit := do
  modify fun s => { s with cx := clampx d x, cy := clampy d y }
  repaintCursor d

def setcolor (d : Display) (fg bg : UInt32) : Draw Unit := do
  modify fun s => { s with fg := fg, bg := bg }
  repaintAll d

/-- What `newline` does when the cursor is behind the last row: all rows go up by one. -/
def scroll (d : Display) : Draw Unit := do
  let s ← get
  (if 0 ≤ s.curX then do
    paint d s.curX s.curY
    modify fun s => { s with curX := -1 }
  else pure ())
  (between 0 (rows d - 1)).forM fun y => (between 0 (cols d)).forM fun x => do
    touch (y + 1) x
    touch y x
    modify fun s =>
      { s with ch := setAt s.ch y x (s.ch (y + 1) x), fgc := setAt s.fgc y x (s.fgc (y + 1) x) }
  modify fun s => { s with fb := scrollUp d 16 s.bg s.fb, cy := rows d - 1 }
  blankRow d (rows d - 1)

def newline (d : Display) : Draw Unit := do
  modify fun s => { s with cx := 0, cy := s.cy + 1 }
  let s ← get
  (if rows d ≤ s.cy then scroll d else pure ())
  repaintCursor d

def eraseCell (d : Display) (x y : ℤ) : Draw Unit := do
  touch y x
  modify (Screen.blanked x y)
  paint d x y

def eraseLine (d : Display) (how : ℤ) : Draw Unit := do
  let s ← get
  let lo := if how = 1 ∨ how = 2 then 0 else s.cx
  let hi := if how = 1 then s.cx + 1 else cols d
  (between lo hi).forM fun x => eraseCell d x s.cy
  repaintCursor d

/-- `clear`, which `erase_display` has a copy of. -/
def clear (d : Display) : Draw Unit := do
  blankAll d
  modify fun s => { s with used := 1, fb := fbClear d s.bg s.fb, cx := 0, cy := 0 }
  repaintCursor d

def eraseDisplay (d : Display) (how : ℤ) : Draw Unit := do
  let s ← get
  if how = 2 ∨ how = 3 then clear d
  else if how = 1 then do
    (between 0 s.cy).forM (blankRow d)
    blankRow d s.cy
    (between 0 (s.cx + 1)).forM fun x => paint d x s.cy
    (between 0 s.cy).forM fun y => (between 0 (cols d)).forM fun x => paint d x y
    repaintCursor d
  else do
    (between s.cx (cols d)).forM fun x => paint d x s.cy
    (between (s.cy + 1) (rows d)).forM fun y => do
      blankRow d y
      (between 0 (cols d)).forM fun x => paint d x y
    repaintCursor d

/-- `cursor_visible`. -/
def cursorVisible (d : Display) (on : Bool) : Draw Unit := do
  let s ← get
  if on = s.cursorOn then pure ()
  else do
    modify fun s => { s with cursorOn := on }
    repaintCursor d

/-! ## Escape sequences -/

inductive State
  | plain
  | afterEsc
  | inCsi
  | inOsc
  deriving DecidableEq

def kMaxParam : ℤ := 8

/-- How far an escape sequence has come. -/
structure Escape where
  state : State
  /-- `g_param`, and what is in front of it and behind it. -/
  param : ℤ → ℤ
  nparam : ℤ
  /-- The number that is being accumulated. -/
  pend : ℤ
  /-- A number has been accumulated at all. -/
  pendSet : Bool
  /-- A private marker was seen. -/
  priv : Bool
  /-- Where `g_param` was used, the last place first. The source does not keep it. -/
  looked : List ℤ

/-- `csi_start`. -/
def Escape.start (e : Escape) : Escape :=
  { e with nparam := 0, pend := 0, pendSet := false, priv := false }

/-- `csi_push`. -/
def Escape.push (e : Escape) : Escape :=
  let e := if e.nparam < kMaxParam then
      { e with param := Function.update e.param e.nparam e.pend, looked := e.nparam :: e.looked }
    else e
  { e with nparam := wrap (e.nparam + 1), pend := 0, pendSet := false }

/-- What a parameter makes of the colours of the text and the ground, where it is not the first of a
form. -/
def rendition (p : ℤ) (fg bg : UInt32) : UInt32 × UInt32 :=
  if p = 0 then (kDefaultFg, kDefaultBg)
  else if p = 1 then (lighten fg, bg)
  else if p = 7 then (bg, fg)
  else if p = 22 then (kDefaultFg, bg)
  else if p = 27 then (kDefaultFg, kDefaultBg)
  else if 30 ≤ p ∧ p ≤ 37 then (ansiFg (p - 30) false, bg)
  else if 90 ≤ p ∧ p ≤ 97 then (ansiFg (p - 90) true, bg)
  else if p = 39 then (kDefaultFg, bg)
  else if 40 ≤ p ∧ p ≤ 47 then (fg, ansiFg (p - 40) false)
  else if 100 ≤ p ∧ p ≤ 107 then (fg, ansiFg (p - 100) true)
  else if p = 49 then (fg, kDefaultBg)
  else (fg, bg)

/-- The colour of the text at 38, and that of the ground at 48. -/
def coloured (p : ℤ) (c fg bg : UInt32) : UInt32 × UInt32 := if p = 38 then (c, bg) else (fg, c)

/-- A turn of the loop in `sgr`: the colours, what `i` is afterwards, and the places of `g_param`
that are looked at. It takes one parameter or more. -/
def sgrTurn (param : ℤ → ℤ) (n i : ℤ) (fg bg : UInt32) : (UInt32 × UInt32) × ℤ × List ℤ :=
  let p := if i < kMaxParam then param i else 0
  let here := if i < kMaxParam then [i] else []
  if (p = 38 ∨ p = 48) ∧ i + 1 < n then
    if param (i + 1) = 2 ∧ i + 4 < n then
      let c := (UInt32.ofInt (param (i + 2)) <<< 16) ||| (UInt32.ofInt (param (i + 3)) <<< 8) |||
        UInt32.ofInt (param (i + 4))
      (coloured p c fg bg, i + 5, here ++ [i + 1, i + 2, i + 3, i + 4])
    else if param (i + 1) = 5 ∧ i + 2 < n then
      let c := ansiFg (Int.land (param (i + 2)) 7) (7 < param (i + 2))
      (coloured p c fg bg, i + 3, here ++ [i + 1, i + 2])
    else ((fg, bg), i + 2, here ++ [i + 1])
  else (rendition p fg bg, i + 1, here)

/-- The loop of `sgr` from a place on: the colours, and the places of `g_param` that are looked
at. -/
def sgrFrom (param : ℤ → ℤ) (n : ℤ) : ℕ → ℤ → UInt32 → UInt32 → (UInt32 × UInt32) × List ℤ
  | 0, _, fg, bg => ((fg, bg), [])
  | fuel + 1, i, fg, bg =>
    if n ≤ i then ((fg, bg), [])
    else
      let (c, next, looked) := sgrTurn param n i fg bg
      let (c, rest) := sgrFrom param n fuel next c.1 c.2
      (c, looked ++ rest)

/-- `sgr`. The result says where it has looked at `g_param`. -/
def sgr (e : Escape) : Draw (List ℤ) := do
  let s ← get
  let (fg, bg) := if e.nparam = 0 then (kDefaultFg, kDefaultBg) else (s.fg, s.bg)
  let (c, looked) := sgrFrom e.param e.nparam e.nparam.toNat 0 fg bg
  modify fun s => { s with fg := c.1, bg := c.2 }
  return looked

/-- What `csi_dispatch` does at any other command than `m`: at `A` to `D`, `G`, `H` and `f`, `J`,
`K`, `h`, `l` and the tilde. -/
def command (d : Display) (priv : Bool) (a b : ℤ) (final : UInt8) : Draw Unit := do
  let s ← get
  match final with
  | 0x41 => moveTo d s.cx (wrap (s.cy - a))
  | 0x42 => moveTo d s.cx (wrap (s.cy + a))
  | 0x43 => moveTo d (wrap (s.cx + a)) s.cy
  | 0x44 => moveTo d (wrap (s.cx - a)) s.cy
  | 0x47 => moveTo d (wrap (a - 1)) s.cy
  | 0x48 | 0x66 => moveTo d (wrap (b - 1)) (wrap (a - 1))
  | 0x4A => eraseDisplay d a
  | 0x4B => eraseLine d a
  | 0x68 => if priv ∧ a = 25 then cursorVisible d true else pure ()
  | 0x6C => if priv ∧ a = 25 then cursorVisible d false else pure ()
  | 0x7E =>
    if a = 1 then moveTo d 0 s.cy
    else if a = 4 then moveTo d (cols d - 1) s.cy
    else if a = 5 then moveTo d s.cx 0
    else if a = 6 then moveTo d s.cx (rows d - 1)
    else pure ()
  | _ => pure ()

/-- `csi_dispatch`. The result says where `g_param` was looked at. -/
def csiDispatch (d : Display) (e : Escape) (final : UInt8) : Draw (List ℤ) := do
  let a := if e.param 0 ≠ 0 then e.param 0 else 1
  let b := if e.param 1 ≠ 0 then e.param 1 else 1
  if final = 0x6D then do
    let looked ← sgr e
    return [0, 1] ++ looked
  else do
    command d e.priv a b final
    return [0, 1]

end Console

/-- The console. -/
structure Console where
  screen : Console.Screen
  esc : Console.Escape

namespace Console

/-- `escape`. There is nothing if an array was used behind its end. -/
def escape (d : Display) (c : UInt8) (k : Console) : Option Console :=
  match k.esc.state with
  | .plain => some k
  | .afterEsc =>
    if c = 0x5B then some { k with esc := { k.esc with state := .inCsi }.start }
    else if c = 0x5D then some { k with esc := { k.esc with state := .inOsc } }
    else some { k with esc := { k.esc with state := .plain } }
  | .inCsi =>
    if 0x30 ≤ c ∧ c ≤ 0x39 then
      some { k with esc := { k.esc with
        pend := wrap (k.esc.pend * 10 + (c.toNat - 0x30)), pendSet := true } }
    else if c = 0x3B then some { k with esc := k.esc.push }
    else if c = 0x3F then some { k with esc := { k.esc with priv := true } }
    else if 0x40 ≤ c ∧ c ≤ 0x7E then
      let e := k.esc.push
      ((csiDispatch d e c).result k.screen).map fun (looked, s) =>
        ⟨s, { e with state := .plain, looked := looked.reverse ++ e.looked }⟩
    else if c = 0x1B then some { k with esc := { k.esc with state := .afterEsc } }
    else some k
  | .inOsc =>
    if c = 0x07 ∨ c = 0x1B then some { k with esc := { k.esc with state := .plain } } else some k

/-- What `putchar` does at the end: the byte becomes the cell under the cursor, and the cursor goes
on. -/
def draw (d : Display) (c : UInt8) : Draw Unit := do
  let s ← get
  touch s.cy s.cx
  modify fun s => { s with
    ch := setAt s.ch s.cy s.cx c
    fgc := setAt s.fgc s.cy s.cx s.fg
    used := if s.used < s.cy + 1 then s.cy + 1 else s.used }
  paint d s.cx s.cy
  modify fun s => { s with cx := s.cx + 1 }
  let s ← get
  if cols d ≤ s.cx then do
    modify fun s => { s with cx := 0, cy := s.cy + 1 }
    let s ← get
    if rows d ≤ s.cy then newline d else repaintCursor d
  else repaintCursor d

/-- What `putchar` does outside of an escape sequence. -/
def plain (d : Display) (c : UInt8) : Draw Unit := do
  let s ← get
  if c = 0x0A then newline d
  else if c = 0x0D then moveTo d 0 s.cy
  else if c = 0x09 then do
    moveTo d (Int.lor s.cx 3 + 1) s.cy
    draw d c
  else if c = 0x08 then do
    modify fun s => { s with cx := if 0 < s.cx then s.cx - 1 else s.cx }
    let s ← get
    eraseCell d s.cx s.cy
    draw d c
  else draw d c

/-- What is drawn without an escape sequence. -/
def onScreen (x : Draw Unit) (k : Console) : Option Console :=
  (x.result k.screen).map fun (_, s) => { k with screen := s }

def putchar (d : Display) (c : UInt8) (k : Console) : Option Console :=
  if k.esc.state ≠ .plain then escape d c k
  else if c = 0x1B then some { k with esc := { k.esc with state := .afterEsc } }
  else onScreen (plain d c) k

/-! ## A run -/

/-- What other code asks of the console. -/
inductive Event
  | putchar (c : UInt8)
  /-- `init`, and what `printf` puts when more cells are needed than are remembered. -/
  | init (note : List UInt8)
  | setcolor (fg bg : UInt32)
  | cursorVisible (on : Bool)
  | clear
  | gotoxy (x y : ℤ)

/-- Some bytes one after the other. -/
def puts (d : Display) (l : List UInt8) (k : Console) : Option Console :=
  l.foldlM (fun k c => putchar d c k) k

/-- The cursor is where it was when the kernel started, and there is no escape sequence. -/
def reset (k : Console) : Console :=
  ⟨{ k.screen with cx := 0, cy := 0, curX := -1, curY := -1, cursorOn := true },
    { k.esc with state := .plain }⟩

/-- `init`. -/
def init (d : Display) (note : List UInt8) (k : Console) : Option Console := do
  let k := { k with screen := { k.screen with fg := kDefaultFg, bg := kDefaultBg } }
  let k ← if kMaxCols < (d.width / 8 : ℕ) ∨ kMaxRows < (d.height / 16 : ℕ) then puts d note k
    else some k
  onScreen (blankAll d) k.reset

def step (d : Display) : Event → Console → Option Console
  | .putchar c, k => putchar d c k
  | .init note, k => init d note k
  | .setcolor fg bg, k => onScreen (setcolor d fg bg) k
  | .cursorVisible on, k => onScreen (cursorVisible d on) k
  | .clear, k => onScreen (clear d) k
  | .gotoxy x y, k => onScreen (moveTo d x y) k

/-- Some requests one after the other. -/
def run (d : Display) (es : List Event) (k : Console) : Option Console :=
  es.foldlM (fun k e => step d e k) k

/-- The variables when the kernel starts. The framebuffer has any content, and so has what is around
`g_param`. -/
def powerOn (around : ℤ → ℤ) (fb : Pixels) : Console where
  screen := ⟨fun _ _ => 0, fun _ _ => 0, 1, 0, 0, -1, -1, true, kDefaultFg, kDefaultBg, fb⟩
  esc := ⟨.plain, fun i => if 0 ≤ i ∧ i < kMaxParam then 0 else around i, 0, 0, false, false, []⟩

/-! ## The cursor on the grid -/

variable {d : Display} {s t : Screen} {k : Console} {x y : ℤ} {J : (ℤ × ℤ) × ℤ × ℤ → Prop}

/-- The cell is on the screen. -/
def InGrid (d : Display) (x y : ℤ) : Prop := (0 ≤ x ∧ x < cols d) ∧ 0 ≤ y ∧ y < rows d

/-- Where the cursor is, and where it is drawn. -/
def Screen.spot (s : Screen) : (ℤ × ℤ) × ℤ × ℤ := ((s.cx, s.cy), s.curX, s.curY)

/-- This holds of the place where the cursor is and of the one where it is drawn. -/
def On (J : (ℤ × ℤ) × ℤ × ℤ → Prop) (s : Screen) : Prop := J s.spot

/-- The cursor is on the screen, and so is what is drawn as the cursor. -/
structure OnGrid (d : Display) (s : Screen) : Prop where
  cursor : InGrid d s.cx s.cy
  block : 0 ≤ s.curX → InGrid d s.curX s.curY

theorem cols_le (d : Display) : cols d ≤ kMaxCols := by
  rw [cols]
  split <;> omega

theorem rows_le (d : Display) : rows d ≤ kMaxRows := by
  rw [rows]
  split <;> omega

theorem cols_pos (h : 8 ≤ d.width) : 0 < cols d := by
  rw [cols]
  split <;> simp only [kMaxCols] at * <;> omega

theorem rows_pos (h : 16 ≤ d.height) : 0 < rows d := by
  rw [rows]
  split <;> simp only [kMaxRows] at * <;> omega

theorem inGrid_clamp (hc : 0 < cols d) (hr : 0 < rows d) (x y : ℤ) :
    InGrid d (clampx d x) (clampy d y) := by
  simp only [InGrid, clampx, clampy]
  refine ⟨?_, ?_⟩
  · split_ifs <;> omega
  · split_ifs <;> omega

theorem OnGrid.of_spot (h : OnGrid d s) (ht : t.spot = s.spot) : OnGrid d t := by
  simp only [Screen.spot, Prod.mk.injEq] at ht
  obtain ⟨⟨hx, hy⟩, hcx, hcy⟩ := ht
  exact ⟨by rw [hx, hy]; exact h.cursor, by rw [hcx, hcy]; exact h.block⟩

/-- A cell of the screen is in the arrays. -/
theorem sure_touch {P : Screen → Prop} (h : InGrid d x y) : Sure P (touch y x) P := by
  have hc := cols_le d
  have hr := rows_le d
  obtain ⟨hx, hy⟩ := h
  exact .guard (by omega)

theorem sure_paint (h : InGrid d x y) : Sure (On J) (paint d x y) (On J) :=
  .bind (sure_touch h) fun _ => .modify fun _ hs => hs

theorem sure_blankRow (h : 0 ≤ y ∧ y < rows d) :
    Sure (On J) (blankRow d y) (On J) := by
  rw [blankRow]
  refine .forM fun x hx => ?_
  exact .bind (sure_touch ⟨mem_between.mp hx, h⟩) fun _ => .modify fun _ hs => hs

theorem sure_paintRow (h : 0 ≤ y ∧ y < rows d) {lo hi : ℤ} (hlo : 0 ≤ lo) (hhi : hi ≤ cols d) :
    Sure (On J) ((between lo hi).forM fun x => paint d x y) (On J) := by
  refine .forM fun x hx => sure_paint ⟨?_, h⟩
  have := mem_between.mp hx
  omega

theorem sure_eraseCell (h : InGrid d x y) :
    Sure (On J) (eraseCell d x y) (On J) :=
  .bind (sure_touch h) fun _ => .bind (.modify fun _ hs => hs) fun _ => sure_paint h

/-- The cursor is drawn where it is, and it stays there. -/
theorem sure_repaintCursor_at (c : ℤ × ℤ) : Sure (fun t => OnGrid d t ∧ (t.cx, t.cy) = c)
    (repaintCursor d)
    fun t => OnGrid d t ∧ (t.cx, t.cy) = c := by
  refine .get_bind fun s ⟨hs, hcell⟩ => ?_
  have hstart : ∀ t, t = s → t.spot = s.spot := fun t ht => ht ▸ rfl
  refine .bind (Q := On (· = s.spot)) (.ite (fun h => ?_) fun _ => .pure hstart) fun _ => ?_
  · exact (sure_paint (J := (· = s.spot)) (hs.block h.1)).mono hstart fun _ => id
  · refine .ite (fun _ => .bind (sure_paint hs.cursor) fun _ => .modify fun t ht => ?_) fun _ =>
      .modify fun t ht => ?_
    · have hg := hs.of_spot ht
      exact ⟨⟨hg.cursor, fun _ => hg.cursor⟩, (Prod.mk.inj ht).1.trans hcell⟩
    · have hg := hs.of_spot ht
      exact ⟨⟨hg.cursor, fun h => absurd (show (0 : ℤ) ≤ -1 from h) (by decide)⟩,
        (Prod.mk.inj ht).1.trans hcell⟩

theorem sure_repaintCursor : Sure (OnGrid d) (repaintCursor d) (OnGrid d) := fun s hs =>
  (sure_repaintCursor_at (s.cx, s.cy)).mono (fun _ => id) (fun _ ht => ht.1) s ⟨hs, rfl⟩

theorem sure_paintAll {lo hi : ℤ} (hlo : 0 ≤ lo) (hhi : hi ≤ rows d) :
    Sure (On J) ((between lo hi).forM fun y => (between 0 (cols d)).forM fun x => paint d x y)
      (On J) := by
  refine .forM fun y hy => sure_paintRow ?_ le_rfl le_rfl
  have := mem_between.mp hy
  omega

theorem sure_moveTo_at (hc : 0 < cols d) (hr : 0 < rows d) (x y : ℤ) :
    Sure (OnGrid d) (moveTo d x y) fun t => OnGrid d t ∧ (t.cx, t.cy) = (clampx d x, clampy d y) :=
  .bind (.modify fun _ hs => ⟨⟨inGrid_clamp hc hr x y, hs.block⟩, rfl⟩) fun _ =>
    sure_repaintCursor_at _

theorem sure_moveTo (hc : 0 < cols d) (hr : 0 < rows d) (x y : ℤ) :
    Sure (OnGrid d) (moveTo d x y) (OnGrid d) :=
  (sure_moveTo_at hc hr x y).mono (fun _ => id) fun _ ht => ht.1

/-- **What `newline` does when the cursor is behind the last row.** -/
theorem sure_scroll (hr : 0 < rows d) (h : 0 ≤ s.curX → InGrid d s.curX s.curY) :
    Sure (· = s) (scroll d) fun t => t.cx = s.cx ∧ t.cy = rows d - 1 ∧ t.curX < 0 := by
  refine .get_bind fun s₁ hs₁ => ?_
  subst hs₁
  refine .bind (Q := On fun p => p.1.1 = s₁.cx ∧ p.2.1 < 0) (.ite (fun hcur => ?_)
    fun hcur => .pure ?_) fun _ =>
    .bind (Q := On fun p => p.1.1 = s₁.cx ∧ p.2.1 < 0) (.forM fun y hy => .forM
      fun x hx => ?_) fun _ =>
    .bind (Q := On fun p => p.1.1 = s₁.cx ∧ p.1.2 = rows d - 1 ∧ p.2.1 < 0)
      (.modify fun t ht => ⟨ht.1, rfl, ht.2⟩) fun _ => sure_blankRow (by omega)
  · refine .bind (Q := On fun p => p.1.1 = s₁.cx) ?_ fun _ =>
      .modify fun t ht => ⟨ht, show (-1 : ℤ) < 0 by decide⟩
    exact (sure_paint (h hcur)).mono (fun t ht => ht ▸ rfl) fun _ => id
  · rintro t rfl
    exact ⟨rfl, not_le.mp hcur⟩
  · have hy' := mem_between.mp hy
    have hx' := mem_between.mp hx
    exact .bind (sure_touch ⟨hx', by omega⟩) fun _ =>
      .bind (sure_touch ⟨hx', by omega⟩) fun _ => .modify fun _ ht => ht

theorem sure_newline (hc : 0 < cols d) (hr : 0 < rows d) :
    Sure (fun s => 0 ≤ s.cy ∧ (0 ≤ s.curX → InGrid d s.curX s.curY)) (newline d) (OnGrid d) := by
  refine .bind (Q := fun s => s.cx = 0 ∧ 0 ≤ s.cy ∧ (0 ≤ s.curX → InGrid d s.curX s.curY))
    (.modify fun s hs => ⟨rfl, by simp only; omega, hs.2⟩) fun _ => .get_bind fun s hs => ?_
  refine .bind (Q := OnGrid d) (.ite (fun _ => ?_) fun hlow => .pure ?_) fun _ => sure_repaintCursor
  · refine (sure_scroll hr hs.2.2).mono (fun _ => id) fun t ht => ⟨⟨?_, ?_⟩, fun hcur => ?_⟩
    · rw [ht.1, hs.1]
      exact ⟨le_rfl, hc⟩
    · rw [ht.2.1]
      omega
    · exact absurd ht.2.2 (not_lt.mpr hcur)
  · rintro t rfl
    exact ⟨⟨by rw [hs.1]; exact ⟨le_rfl, hc⟩, hs.2.1, not_le.mp hlow⟩, hs.2.2⟩

theorem sure_blankAll : Sure (On J) (blankAll d) (On J) := by
  refine .get_bind fun s hs => Sure.mono (P := On J) ?_ (fun t ht => ht ▸ hs) fun _ => id
  refine .forM fun y hy => sure_blankRow ?_
  have := mem_between.mp hy
  rw [Screen.usedRows] at this
  split at this <;> omega

theorem sure_repaintAll : Sure (On J) (repaintAll d) (On J) := by
  refine .get_bind fun s hs => Sure.mono (P := On J) ?_ (fun t ht => ht ▸ hs) fun _ => id
  refine sure_paintAll le_rfl ?_
  rw [Screen.usedRows]
  split <;> omega

theorem sure_setcolor (fg bg : UInt32) : Sure (OnGrid d) (setcolor d fg bg) (OnGrid d) := by
  refine .bind (Q := OnGrid d) (.modify fun t ht => ⟨ht.cursor, ht.block⟩) fun _ t ht => ?_
  exact (sure_repaintAll (J := (· = t.spot))).mono (fun u hu => congrArg Screen.spot hu)
    (fun u hu => ht.of_spot hu)
    t rfl

theorem sure_clear (hc : 0 < cols d) (hr : 0 < rows d) : Sure (OnGrid d) (clear d) (OnGrid d) := by
  refine .bind (Q := fun s => 0 ≤ s.curX → InGrid d s.curX s.curY) ?_ fun _ =>
    .bind (.modify fun s hs => ⟨⟨⟨le_rfl, hc⟩, le_rfl, hr⟩, hs⟩) fun _ => sure_repaintCursor
  exact (sure_blankAll (J := fun p => 0 ≤ p.2.1 → InGrid d p.2.1 p.2.2)).mono (fun s hs => hs.block)
    fun _ => id

theorem sure_eraseLine (how : ℤ) : Sure (OnGrid d) (eraseLine d how) (OnGrid d) := by
  refine .get_bind fun s hs => .bind (Q := OnGrid d) ?_ fun _ => sure_repaintCursor
  refine Sure.mono (P := On (· = s.spot)) (.forM fun x hx => sure_eraseCell ⟨?_, hs.cursor.2⟩)
    (fun t ht => ht ▸ rfl)
    fun t ht => hs.of_spot ht
  have hcur := hs.cursor.1
  have hx' := mem_between.mp hx
  split_ifs at hx' <;> omega

theorem sure_eraseDisplay (hc : 0 < cols d) (hr : 0 < rows d) (how : ℤ) :
    Sure (OnGrid d) (eraseDisplay d how) (OnGrid d) := by
  refine .get_bind fun s hs => ?_
  obtain ⟨hx, hy⟩ := hs.cursor
  have hstart : ∀ t, t = s → On (· = s.spot) t := fun t ht => ht ▸ rfl
  have hend : Sure (On (· = s.spot)) (repaintCursor d) (OnGrid d) :=
    sure_repaintCursor.mono (fun t ht => hs.of_spot ht) fun _ => id
  refine .ite (fun _ => (sure_clear hc hr).mono (fun t ht => ht ▸ hs) fun _ => id) fun _ =>
    Sure.mono (P := On (· = s.spot)) (.ite (fun _ => ?_) fun _ => ?_) hstart fun _ => id
  · refine .bind (.forM fun y hyr => sure_blankRow ?_) fun _ => .bind (sure_blankRow hy) fun _ =>
      .bind (sure_paintRow hy le_rfl (by omega)) fun _ => .bind (sure_paintAll le_rfl hy.2.le)
        fun _ => hend
    have := mem_between.mp hyr
    omega
  · refine .bind (sure_paintRow hy hx.1 le_rfl) fun _ => .bind (.forM fun y hyr => ?_) fun _ => hend
    have hy' : 0 ≤ y ∧ y < rows d := by
      have := mem_between.mp hyr
      omega
    exact .bind (sure_blankRow hy') fun _ => sure_paintRow hy' le_rfl le_rfl

theorem sure_cursorVisible (on : Bool) : Sure (OnGrid d) (cursorVisible d on) (OnGrid d) := by
  refine .get_bind fun s hs => .ite (fun _ => .pure fun t ht => ht ▸ hs) fun _ => ?_
  exact .bind (Q := OnGrid d) (.modify fun t ht => by subst ht; exact ⟨hs.cursor, hs.block⟩)
    fun _ =>
    sure_repaintCursor

theorem sure_draw (hc : 0 < cols d) (hr : 0 < rows d) (c : UInt8) :
    Sure (OnGrid d) (draw d c) (OnGrid d) := by
  refine .get_bind fun s hs => .bind (sure_touch hs.cursor) fun _ =>
    .bind (Q := On (· = s.spot)) (.modify fun t ht => ht ▸ rfl) fun _ =>
    .bind (sure_paint hs.cursor) fun _ =>
    .bind (Q := On (· = ((s.cx + 1, s.cy), s.curX, s.curY))) (.modify fun t ht => ?_) fun _ =>
    .get_bind fun u hu => ?_
  · have hspot := Prod.mk.inj ht
    have hcell := Prod.mk.inj hspot.1
    exact Prod.ext (Prod.ext (congrArg (· + 1) hcell.1) hcell.2) hspot.2
  · have hspot := Prod.mk.inj hu
    have hcell := Prod.mk.inj hspot.1
    have hblock := Prod.mk.inj hspot.2
    have hdrawn : 0 ≤ u.curX → InGrid d u.curX u.curY := by
      rw [hblock.1, hblock.2]
      exact hs.block
    obtain ⟨⟨hx, hx'⟩, hy, hy'⟩ := hs.cursor
    refine .ite (fun hwrap => .bind (Q := fun t => t.cx = 0 ∧ t.cy = s.cy + 1 ∧
      (0 ≤ t.curX → InGrid d t.curX t.curY)) (.modify fun t ht => ?_) fun _ => .get_bind fun v hv =>
      ?_) fun hin => ?_
    · subst ht
      exact ⟨rfl, congrArg (· + 1) hcell.2, hdrawn⟩
    · refine .ite (fun _ => (sure_newline hc hr).mono (fun t ht => ?_) fun _ => id) fun hlow =>
        sure_repaintCursor.mono (fun t ht => ?_) fun _ => id
      · subst ht
        exact ⟨by omega, hv.2.2⟩
      · subst ht
        exact ⟨⟨by omega, by omega⟩, hv.2.2⟩
    · refine sure_repaintCursor.mono (fun t ht => ?_) fun _ => id
      subst ht
      exact ⟨⟨by omega, by omega⟩, hdrawn⟩

theorem sure_plain (hc : 0 < cols d) (hr : 0 < rows d) (c : UInt8) :
    Sure (OnGrid d) (plain d c) (OnGrid d) := by
  refine .get_bind fun s hs => Sure.mono (P := OnGrid d) ?_ (fun t ht => ht ▸ hs) fun _ => id
  refine .ite (fun _ => ?_) fun _ => .ite (fun _ => sure_moveTo hc hr _ _) fun _ =>
    .ite (fun _ => .bind (sure_moveTo hc hr _ _) fun _ => sure_draw hc hr c) fun _ =>
    .ite (fun _ => ?_) fun _ => sure_draw hc hr c
  · exact (sure_newline hc hr).mono (fun t ht => ⟨ht.cursor.2.1, ht.block⟩) fun _ => id
  · refine .bind (Q := OnGrid d) (.modify fun t ht => ⟨⟨?_, ht.cursor.2⟩, ht.block⟩) fun _ =>
      .get_bind fun u hu => .bind (Q := OnGrid d) ?_ fun _ => sure_draw hc hr c
    · have := ht.cursor.1
      simp only
      split <;> omega
    · exact (sure_eraseCell (J := (· = u.spot)) hu.cursor).mono (fun t ht => ht ▸ rfl) fun t ht =>
        hu.of_spot ht

theorem sure_sgr (e : Escape) : Sure (OnGrid d) (sgr e) (OnGrid d) :=
  .get_bind fun _ hs => .bind (Q := OnGrid d)
    (.modify fun t ht => by subst ht; exact ⟨hs.cursor, hs.block⟩) fun _ =>
    .pure fun _ => id

theorem sure_command (hc : 0 < cols d) (hr : 0 < rows d) (priv : Bool) (a b : ℤ) (final : UInt8) :
    Sure (OnGrid d) (command d priv a b final) (OnGrid d) := by
  refine .get_bind fun s hs => Sure.mono (P := OnGrid d) ?_ (fun t ht => ht ▸ hs) fun _ => id
  have hnone : Sure (OnGrid d) (pure () : Draw Unit) (OnGrid d) := .pure fun _ => id
  have hmove : ∀ x y, Sure (OnGrid d) (moveTo d x y) (OnGrid d) := sure_moveTo hc hr
  split
  case h_8 => exact sure_eraseDisplay hc hr a
  case h_9 => exact sure_eraseLine a
  case h_10 => exact .ite (fun _ => sure_cursorVisible true) fun _ => hnone
  case h_11 => exact .ite (fun _ => sure_cursorVisible false) fun _ => hnone
  case h_12 =>
    exact .ite (fun _ => hmove _ _) fun _ => .ite (fun _ => hmove _ _) fun _ =>
      .ite (fun _ => hmove _ _) fun _ => .ite (fun _ => hmove _ _) fun _ => hnone
  case h_13 => exact hnone
  all_goals exact hmove _ _

theorem sure_csiDispatch (hc : 0 < cols d) (hr : 0 < rows d) (e : Escape) (final : UInt8) :
    Sure (OnGrid d) (csiDispatch d e final) (OnGrid d) :=
  .ite (fun _ => .bind (sure_sgr e) fun _ => .pure fun _ => id) fun _ =>
    .bind (sure_command hc hr _ _ _ _) fun _ => .pure fun _ => id

/-- What draws keeps the cursor on the grid. -/
theorem onScreen_of_sure {x : Draw Unit} {P Q : Screen → Prop} (h : Sure P x Q) (hk : P k.screen) :
    ∃ k', onScreen x k = some k' ∧ Q k'.screen ∧ k'.esc = k.esc := by
  obtain ⟨_, t, hrun, ht⟩ := result_of_wp (h k.screen hk)
  exact ⟨{ k with screen := t }, by rw [onScreen, hrun]; rfl, ht, rfl⟩

/-- **One byte.** -/
theorem putchar_stays (hc : 0 < cols d) (hr : 0 < rows d) (c : UInt8) (hk : OnGrid d k.screen) :
    ∃ k', putchar d c k = some k' ∧ OnGrid d k'.screen := by
  rw [putchar]
  split
  · rw [escape]
    split
    case h_1 => exact ⟨k, rfl, hk⟩
    case h_2 =>
      split_ifs
      all_goals exact ⟨_, rfl, hk⟩
    case h_3 =>
      split_ifs
      · exact ⟨_, rfl, hk⟩
      · exact ⟨_, rfl, hk⟩
      · exact ⟨_, rfl, hk⟩
      · obtain ⟨looked, t, hrun, ht⟩ :=
          result_of_wp (sure_csiDispatch hc hr k.esc.push c k.screen hk)
        exact ⟨_, congrArg (Option.map _) hrun, ht⟩
      · exact ⟨_, rfl, hk⟩
      · exact ⟨_, rfl, hk⟩
    case h_4 =>
      split_ifs
      all_goals exact ⟨_, rfl, hk⟩
  · split
    · exact ⟨_, rfl, hk⟩
    · obtain ⟨k', hrun, ht, -⟩ := onScreen_of_sure (sure_plain hc hr c) hk
      exact ⟨k', hrun, ht⟩

theorem puts_stays (hc : 0 < cols d) (hr : 0 < rows d) (l : List UInt8) (hk : OnGrid d k.screen) :
    ∃ k', puts d l k = some k' ∧ OnGrid d k'.screen := by
  induction l generalizing k with
  | nil => exact ⟨k, rfl, hk⟩
  | cons c l ih =>
    obtain ⟨k₁, hput, hk₁⟩ := putchar_stays hc hr c hk
    obtain ⟨k₂, hputs, hk₂⟩ := ih hk₁
    exact ⟨k₂, by rw [puts, List.foldlM_cons, hput]; exact hputs, hk₂⟩

theorem init_stays (hc : 0 < cols d) (hr : 0 < rows d) (note : List UInt8)
    (hk : OnGrid d k.screen) :
    ∃ k', init d note k = some k' ∧ OnGrid d k'.screen := by
  have hblank : ∀ k₁ : Console, ∃ k', onScreen (blankAll d) k₁.reset = some k' ∧
      OnGrid d k'.screen := by
    intro k₁
    obtain ⟨k', hrun, ht, -⟩ :=
      onScreen_of_sure (sure_blankAll (d := d) (J := (· = ((0, 0), -1, -1))))
      (show On _ k₁.reset.screen from rfl)
    have hstart : OnGrid d k₁.reset.screen :=
      ⟨⟨⟨le_rfl, hc⟩, le_rfl, hr⟩, fun h => absurd (show (0 : ℤ) ≤ -1 from h) (by decide)⟩
    exact ⟨k', hrun, hstart.of_spot ht⟩
  rw [init]
  split
  · obtain ⟨k₁, hputs, -⟩ := puts_stays hc hr note (k := { k with screen := { k.screen with
      fg := kDefaultFg, bg := kDefaultBg } }) ⟨hk.cursor, hk.block⟩
    rw [hputs]
    exact hblank k₁
  · exact hblank _

/-- **One request.** -/
theorem step_stays (hc : 0 < cols d) (hr : 0 < rows d) (e : Event) (hk : OnGrid d k.screen) :
    ∃ k', step d e k = some k' ∧ OnGrid d k'.screen := by
  have hdraw : ∀ x : Draw Unit, Sure (OnGrid d) x (OnGrid d) →
      ∃ k', onScreen x k = some k' ∧ OnGrid d k'.screen := by
    intro x hx
    obtain ⟨k', hrun, ht, -⟩ := onScreen_of_sure hx hk
    exact ⟨k', hrun, ht⟩
  cases e with
  | putchar c => exact putchar_stays hc hr c hk
  | init note => exact init_stays hc hr note hk
  | setcolor fg bg => exact hdraw _ (sure_setcolor fg bg)
  | cursorVisible on => exact hdraw _ (sure_cursorVisible on)
  | clear => exact hdraw _ (sure_clear hc hr)
  | gotoxy x y => exact hdraw _ (sure_moveTo hc hr x y)

theorem run_keeps (hc : 0 < cols d) (hr : 0 < rows d) (es : List Event) (hk : OnGrid d k.screen) :
    ∃ k', run d es k = some k' ∧ OnGrid d k'.screen := by
  induction es generalizing k with
  | nil => exact ⟨k, rfl, hk⟩
  | cons e es ih =>
    obtain ⟨k₁, hstep, hk₁⟩ := step_stays hc hr e hk
    obtain ⟨k₂, hrun, hk₂⟩ := ih hk₁
    exact ⟨k₂, by rw [run, List.foldlM_cons, hstep]; exact hrun, hk₂⟩

/-- **The cursor stays on the grid**, and nothing outside of the arrays is used. -/
theorem run_stays (d : Display) (hw : 8 ≤ d.width) (hh : 16 ≤ d.height)
    (around : ℤ → ℤ) (fb : Pixels)
    (es : List Event) : ∃ k, run d es (powerOn around fb) = some k ∧
      (0 ≤ k.screen.cx ∧ k.screen.cx < cols d) ∧ 0 ≤ k.screen.cy ∧ k.screen.cy < rows d := by
  have hc := cols_pos hw
  have hr := rows_pos hh
  obtain ⟨k, hrun, hk⟩ := run_keeps hc hr es (k := powerOn around fb)
    ⟨⟨⟨le_rfl, hc⟩, le_rfl, hr⟩, fun h => absurd (show (0 : ℤ) ≤ -1 from h) (by decide)⟩
  exact ⟨k, hrun, hk.cursor⟩

/-- The smallest framebuffer, with a cursor that wraps and a parameter that is too large. -/
theorem run_stays_small : ∃ k, run ⟨8, 16, fun _ _ => 0⟩
    ([97, 0x1B, 0x5B, 0x39, 0x39, 0x43, 98, 0x0A].map .putchar)
    (powerOn (fun _ => 0) fun _ _ => 0) = some k ∧
      (0 ≤ k.screen.cx ∧ k.screen.cx < cols ⟨8, 16, fun _ _ => 0⟩) ∧
        0 ≤ k.screen.cy ∧ k.screen.cy < rows ⟨8, 16, fun _ _ => 0⟩ :=
  run_stays _ le_rfl le_rfl _ _ _

end Console

end Aurisys
