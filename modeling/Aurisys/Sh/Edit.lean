import Aurisys.Lib.Bytes
import Mathlib.Data.List.InsertIdx

/-!
# The line editor of the shell

`g_line` holds the line that is being typed, `g_n` is its length and `g_pos` the cursor. Each
function moves what is behind the cursor by one byte in place.

`insert_char` stores the character twice: once at the cursor, and once at the end, where the last
character of the line has just been moved to. So a character that is inserted in front of another
one takes the place of the last one, too.

## Main definitions

* `Editor` — the line, and the functions that change it
* `Buffer` — the reference: a text with a cursor in it
* `Editor.Careful` — no character is lost

## Main results

* `text_insertChar`, `text_deleteBack`, `text_deleteForward` — what each function makes of the line
* `edits_refine`
-/

namespace Aurisys

namespace Sh

def kLineMax : ℕ := 256

/-! ## The code -/

/-- `g_line`, `g_n` and `g_pos`. -/
structure Editor where
  line : Bytes
  n : ℕ
  pos : ℕ

/-- The loop of `insert_char`, which goes down: `k` bytes from `pos` move up by one. -/
def shiftUp (m : Bytes) (pos : ℕ) : ℕ → Bytes
  | 0 => m
  | k + 1 => shiftUp (Function.update m (pos + k + 1) (m (pos + k))) pos k

/-- The loops of `delete_back` and `delete_forward`, which go up: `k` bytes move down by one, to
`i`. -/
def shiftDown (m : Bytes) (i : ℕ) : ℕ → Bytes
  | 0 => m
  | k + 1 => shiftDown (Function.update m i (m (i + 1))) (i + 1) k

namespace Editor

/-- `read_line` begins with an empty line. Only its zero is stored. -/
def start (m : Bytes) : Editor := ⟨Function.update m 0 0, 0, 0⟩

/-- `insert_char`. -/
def insertChar (e : Editor) (c : UInt8) : Editor :=
  if kLineMax ≤ e.n then e
  else
    let m := shiftUp e.line e.pos (e.n - e.pos)
    let m := Function.update m e.pos c
    let m := Function.update m e.n c
    ⟨Function.update m (e.n + 1) 0, e.n + 1, e.pos + 1⟩

/-- `delete_back`. -/
def deleteBack (e : Editor) : Editor :=
  if e.pos = 0 then e
  else
    let pos := e.pos - 1
    let m := shiftDown e.line pos (e.n - pos)
    ⟨Function.update m (e.n - 1) 0, e.n - 1, pos⟩

/-- `delete_forward`. -/
def deleteForward (e : Editor) : Editor :=
  if e.n ≤ e.pos then e
  else
    let m := shiftDown e.line e.pos (e.n - 1 - e.pos)
    ⟨Function.update m (e.n - 1) 0, e.n - 1, e.pos⟩

/-- `move_cursor`. -/
def moveCursor (e : Editor) (delta : ℤ) : Editor :=
  let want := e.pos + delta
  if want < 0 ∨ e.n < want then e else { e with pos := want.toNat }

/-- The key `Home`. -/
def home (e : Editor) : Editor := { e with pos := 0 }

/-- The key `End`. -/
def toEnd (e : Editor) : Editor := { e with pos := e.n }

/-- `g_line[0..g_n)`. -/
def text (e : Editor) : List UInt8 := (List.range e.n).map e.line

end Editor

/-- What can be done to a line. -/
inductive Op
  | insertChar (c : UInt8)
  | deleteBack
  | deleteForward
  | moveCursor (delta : ℤ)
  | home
  | toEnd

/-- The keys of `read_line` that change the line. -/
inductive Key
  | char (c : UInt8)
  | backspace
  | del
  | left
  | right
  | home
  | toEnd

/-- The dispatch of `read_line`. -/
def Key.op : Key → Option Op
  | char c => if 0x20 ≤ c ∧ c < 0x7F then some (.insertChar c) else none
  | backspace => some .deleteBack
  | del => some .deleteForward
  | left => some (.moveCursor (-1))
  | right => some (.moveCursor 1)
  | home => some .home
  | toEnd => some .toEnd

def Editor.step (e : Editor) : Op → Editor
  | .insertChar c => e.insertChar c
  | .deleteBack => e.deleteBack
  | .deleteForward => e.deleteForward
  | .moveCursor delta => e.moveCursor delta
  | .home => e.home
  | .toEnd => e.toEnd

def Editor.run (e : Editor) (ops : List Op) : Editor := ops.foldl Editor.step e

/-! ## The reference -/

/-- A text, and a cursor that is in it or behind it. -/
structure Buffer where
  text : List UInt8
  cursor : ℕ
  cursor_le : cursor ≤ text.length

namespace Buffer

def empty : Buffer := ⟨[], 0, le_rfl⟩

/-- The character is put at the cursor, if the line is not full. -/
def insert (b : Buffer) (c : UInt8) : Buffer :=
  if kLineMax ≤ b.text.length then b
  else ⟨b.text.insertIdx b.cursor c, b.cursor + 1, by
    rw [List.length_insertIdx_of_le_length b.cursor_le]
    exact Nat.succ_le_succ b.cursor_le⟩

/-- The character before the cursor is removed. -/
def back (b : Buffer) : Buffer :=
  if h : b.cursor = 0 then b
  else ⟨b.text.eraseIdx (b.cursor - 1), b.cursor - 1, by
    have := b.cursor_le
    rw [List.length_eraseIdx_of_lt (by omega)]
    omega⟩

/-- The character under the cursor is removed. -/
def forward (b : Buffer) : Buffer :=
  ⟨b.text.eraseIdx b.cursor, b.cursor, by
    have := b.cursor_le
    rw [List.length_eraseIdx]
    split <;> omega⟩

/-- The cursor moves, if it stays within the line. -/
def move (b : Buffer) (delta : ℤ) : Buffer :=
  if h : 0 ≤ b.cursor + delta ∧ b.cursor + delta ≤ b.text.length then
    ⟨b.text, (b.cursor + delta).toNat, by omega⟩
  else b

def step (b : Buffer) : Op → Buffer
  | .insertChar c => b.insert c
  | .deleteBack => b.back
  | .deleteForward => b.forward
  | .moveCursor delta => b.move delta
  | .home => ⟨b.text, 0, Nat.zero_le _⟩
  | .toEnd => ⟨b.text, b.text.length, le_rfl⟩

def run (b : Buffer) (ops : List Op) : Buffer := ops.foldl Buffer.step b

end Buffer

variable {e : Editor} {b : Buffer} {m : Bytes} {c : UInt8} {pos k a i : ℕ} {op : Op} {ops : List Op}

/-! ## The loops -/

theorem shiftUp_apply (m : Bytes) (pos k a : ℕ) :
    shiftUp m pos k a = if pos < a ∧ a ≤ pos + k then m (a - 1) else m a := by
  induction k generalizing m with
  | zero => rw [shiftUp, if_neg (by omega)]
  | succ k ih =>
    rw [shiftUp, ih]
    by_cases hlast : a = pos + k + 1
    · subst hlast
      rw [if_neg (by omega), Function.update_self, if_pos (by omega), Nat.add_sub_cancel]
    · rw [Function.update_of_ne hlast]
      by_cases hin : pos < a ∧ a ≤ pos + k
      · rw [if_pos hin, if_pos (by omega), Function.update_of_ne (by omega)]
      · rw [if_neg hin, if_neg (by omega)]

theorem shiftDown_apply (m : Bytes) (i k a : ℕ) :
    shiftDown m i k a = if i ≤ a ∧ a < i + k then m (a + 1) else m a := by
  induction k generalizing m i with
  | zero => rw [shiftDown, if_neg (by omega)]
  | succ k ih =>
    rw [shiftDown, ih]
    by_cases hfirst : a = i
    · subst hfirst
      rw [if_neg (by omega), Function.update_self, if_pos (by omega)]
    · rw [Function.update_of_ne hfirst]
      by_cases hin : i + 1 ≤ a ∧ a < i + 1 + k
      · rw [if_pos hin, if_pos (by omega), Function.update_of_ne (by omega)]
      · rw [if_neg hin, if_neg (by omega)]

namespace Editor

theorem length_text (e : Editor) : e.text.length = e.n := by simp [text]

theorem getElem?_text (e : Editor) (q : ℕ) : e.text[q]? = if q < e.n then some (e.line q)
    else none := by
  rw [text, List.getElem?_map]
  by_cases hq : q < e.n
  · rw [if_pos hq, List.getElem?_range hq]
    rfl
  · rw [if_neg hq, List.getElem?_eq_none (by simpa using hq)]
    rfl

/-! ## What the functions make of the line -/

/-- The bytes after an insertion. -/
theorem line_insertChar (hn : e.n < kLineMax) (hpos : e.pos ≤ e.n) {q : ℕ} (hq : q ≤ e.n) :
    (e.insertChar c).line q =
      if q < e.pos then e.line q else if q = e.pos ∨ q = e.n then c else e.line (q - 1) := by
  rw [insertChar, if_neg (by omega)]
  dsimp only
  rw [Function.update_of_ne (by omega)]
  by_cases hend : q = e.n
  · subst hend
    rw [Function.update_self, if_neg (by omega), if_pos (.inr rfl)]
  · rw [Function.update_of_ne hend]
    by_cases hat : q = e.pos
    · subst hat
      rw [Function.update_self, if_neg (lt_irrefl _), if_pos (.inl rfl)]
    · rw [Function.update_of_ne hat, shiftUp_apply]
      by_cases hlt : q < e.pos
      · rw [if_neg (by omega), if_pos hlt]
      · rw [if_pos (by omega), if_neg hlt, if_neg (by omega)]

/-- **`insert_char` inserts** if the cursor is at the end, or the last character is the same. -/
theorem text_insertChar (hn : e.n < kLineMax) (hpos : e.pos ≤ e.n) :
    (e.insertChar c).text = e.text.insertIdx e.pos c ↔ e.pos = e.n ∨ e.line (e.n - 1) = c := by
  have hlen : (e.insertChar c).n = e.n + 1 := by rw [insertChar, if_neg (by omega)]
  constructor
  · intro h
    by_contra hno
    rw [not_or] at hno
    have hlast : (e.insertChar c).text[e.n]? = (e.text.insertIdx e.pos c)[e.n]? := by rw [h]
    rw [getElem?_text, hlen, if_pos (by omega), line_insertChar hn hpos le_rfl, if_neg (by omega),
      if_pos (.inr rfl), List.getElem?_insertIdx, if_neg (by omega), if_neg (Ne.symm hno.1),
      getElem?_text,
      if_pos (by omega)] at hlast
    exact hno.2 (Option.some.inj hlast).symm
  · intro h
    refine List.ext_getElem? fun q => ?_
    rw [getElem?_text, hlen, List.getElem?_insertIdx, getElem?_text, getElem?_text, length_text]
    by_cases hq : q ≤ e.n
    · rw [if_pos (Nat.lt_succ_of_le hq), line_insertChar hn hpos hq]
      by_cases hlt : q < e.pos
      · rw [if_pos hlt, if_pos hlt, if_pos (by omega)]
      · rw [if_neg hlt, if_neg hlt]
        by_cases hat : q = e.pos
        · rw [if_pos (.inl hat), if_pos hat, if_pos (by omega)]
        · rw [if_neg hat, if_pos (show q - 1 < e.n by omega)]
          by_cases hend : q = e.n
          · rw [if_pos (.inr hend), hend, h.resolve_left (by omega)]
          · rw [if_neg (by omega)]
    · rw [if_neg (by omega), if_neg (by omega), if_neg (by omega), if_neg (by omega)]

theorem text_deleteBack (hpos : e.pos ≤ e.n) (h0 : e.pos ≠ 0) :
    e.deleteBack.text = e.text.eraseIdx (e.pos - 1) := by
  refine List.ext_getElem? fun q => ?_
  rw [getElem?_text, List.getElem?_eraseIdx, getElem?_text, getElem?_text, deleteBack, if_neg h0]
  dsimp only
  by_cases hq : q < e.n - 1
  · rw [if_pos hq, Function.update_of_ne (by omega), shiftDown_apply,
      if_pos (show q < e.n by omega),
      if_pos (show q + 1 < e.n by omega)]
    by_cases hlt : q < e.pos - 1
    · rw [if_neg (by omega), if_pos hlt]
    · rw [if_pos (by omega), if_neg hlt]
  · rw [if_neg hq, if_neg (by omega), if_neg (by omega)]

theorem text_deleteForward (e : Editor) : e.deleteForward.text = e.text.eraseIdx e.pos := by
  rw [deleteForward]
  split
  · rw [List.eraseIdx_of_length_le (by rw [length_text]; omega)]
  · refine List.ext_getElem? fun q => ?_
    rw [getElem?_text, List.getElem?_eraseIdx, getElem?_text, getElem?_text]
    dsimp only
    by_cases hq : q < e.n - 1
    · rw [if_pos hq, Function.update_of_ne (by omega), shiftDown_apply,
        if_pos (show q < e.n by omega),
        if_pos (show q + 1 < e.n by omega)]
      by_cases hlt : q < e.pos
      · rw [if_neg (by omega), if_pos hlt]
      · rw [if_pos (by omega), if_neg hlt]
    · rw [if_neg hq, if_neg (by omega), if_neg (by omega)]

end Editor

/-! ## One step -/

/-- The pair of the line and the cursor is that of the reference. -/
structure Fits (e : Editor) (b : Buffer) : Prop where
  text : e.text = b.text
  cursor : e.pos = b.cursor

/-- Nothing is lost: the line is full, the cursor is at its end, or the last character is the one
that is inserted. -/
def Editor.Spares (e : Editor) : Op → Prop
  | .insertChar c => kLineMax ≤ e.n ∨ e.pos = e.n ∨ e.line (e.n - 1) = c
  | _ => True

theorem Fits.length (h : Fits e b) : b.text.length = e.n := by rw [← h.text, e.length_text]

theorem Fits.pos_le (h : Fits e b) : e.pos ≤ e.n := by
  rw [h.cursor, ← h.length]
  exact b.cursor_le

/-- **One step** agrees with the reference if nothing is lost, and only then. -/
theorem Fits.step_iff (h : Fits e b) (op : Op) : Fits (e.step op) (b.step op) ↔ e.Spares op := by
  have hlen := h.length
  have hpos := h.pos_le
  cases op with
  | insertChar c =>
    show Fits (e.insertChar c) (b.insert c) ↔ _
    by_cases hfull : kLineMax ≤ e.n
    · rw [Editor.insertChar, if_pos hfull, Buffer.insert, if_pos (hlen ▸ hfull)]
      exact iff_of_true h (.inl hfull)
    · have htext := @Editor.text_insertChar e c (by omega) hpos
      have hcur : (e.insertChar c).pos = e.pos + 1 := by rw [Editor.insertChar, if_neg hfull]
      rw [Buffer.insert, if_neg (hlen ▸ hfull)]
      rw [h.text, h.cursor] at htext
      constructor
      · intro hf
        refine .inr ?_
        rw [h.cursor]
        exact htext.mp hf.text
      · intro hs
        refine ⟨htext.mpr ?_, by rw [hcur, h.cursor]⟩
        rw [← h.cursor]
        exact hs.resolve_left hfull
  | deleteBack =>
    refine iff_of_true ?_ trivial
    show Fits e.deleteBack b.back
    by_cases h0 : e.pos = 0
    · rw [Editor.deleteBack, if_pos h0, Buffer.back, dif_pos (h.cursor ▸ h0)]
      exact h
    · have htext := Editor.text_deleteBack hpos h0
      rw [h.text, h.cursor] at htext
      rw [Buffer.back, dif_neg (h.cursor ▸ h0)]
      refine ⟨htext, ?_⟩
      rw [Editor.deleteBack, if_neg h0]
      exact congrArg (· - 1) h.cursor
  | deleteForward =>
    refine iff_of_true ⟨?_, ?_⟩ trivial
    · have htext := Editor.text_deleteForward e
      rw [h.text, h.cursor] at htext
      exact htext
    · show e.deleteForward.pos = b.cursor
      rw [← h.cursor, Editor.deleteForward]
      split <;> rfl
  | moveCursor delta =>
    refine iff_of_true ?_ trivial
    show Fits (e.moveCursor delta) (b.move delta)
    rw [Editor.moveCursor, Buffer.move]
    by_cases hin : 0 ≤ (b.cursor : ℤ) + delta ∧ (b.cursor : ℤ) + delta ≤ b.text.length
    · rw [dif_pos hin, if_neg (by rw [h.cursor]; omega)]
      exact ⟨h.text, by rw [h.cursor]⟩
    · rw [dif_neg hin, if_pos (by rw [h.cursor]; omega)]
      exact h
  | home => exact iff_of_true ⟨h.text, rfl⟩ trivial
  | toEnd => exact iff_of_true ⟨h.text, hlen.symm⟩ trivial

/-! ## A run -/

/-- No step of the run loses a character. -/
def Editor.Careful (e : Editor) : List Op → Prop
  | [] => True
  | op :: ops => e.Spares op ∧ (e.step op).Careful ops

/-- The editor agrees with the reference in every state of the run. -/
def Agrees (e : Editor) (b : Buffer) (ops : List Op) : Prop :=
  ∀ pre, pre <+: ops → Fits (e.run pre) (b.run pre)

/-- **A run** agrees with the reference if no step loses a character, and only then. -/
theorem Fits.agrees_iff (h : Fits e b) (ops : List Op) : Agrees e b ops ↔ e.Careful ops := by
  induction ops generalizing e b with
  | nil =>
    refine iff_of_true (fun pre hpre => ?_) trivial
    rw [List.prefix_nil.mp hpre]
    exact h
  | cons op ops ih =>
    constructor
    · intro hagrees
      have hfirst : Fits (e.step op) (b.step op) := hagrees [op] ⟨ops, rfl⟩
      exact ⟨(h.step_iff op).mp hfirst, (ih hfirst).mp fun pre hpre =>
        hagrees (op :: pre) (List.cons_prefix_cons.mpr ⟨rfl, hpre⟩)⟩
    · rintro ⟨hspares, hcareful⟩ pre hpre
      cases pre with
      | nil => exact h
      | cons op' pre =>
        obtain ⟨rfl, hrest⟩ := List.cons_prefix_cons.mp hpre
        have hfirst := (h.step_iff op').mpr hspares
        exact (ih hfirst).mpr hcareful pre hrest

/-- **The line editor refines the reference** from the empty line on, in every run in which each
character is inserted at the end, or in a full line, or in front of the same character at the end,
and in no other. -/
theorem edits_refine (m : Bytes) (ops : List Op) :
    Agrees (.start m) .empty ops ↔ (Editor.start m).Careful ops :=
  Fits.agrees_iff ⟨rfl, rfl⟩ ops

/-- An `x` in front of `ab` takes the place of the `b`. -/
theorem edits_lose : ¬Agrees (.start fun _ => 0) .empty
    [.insertChar 97, .insertChar 98, .home, .insertChar 120] := by
  intro h
  have htext := (h _ (List.prefix_refl _)).text
  exact absurd htext (by decide)

end Sh

end Aurisys
