import Mathlib.Data.Nat.Bitwise
import Mathlib.Tactic.Ring

/-!
# Byte memories with little-endian words

A byte memory is a total function from addresses to bytes. Everything the kernel keeps in memory
or on disk is read and written through it: the block headers of the heap, the words of a signal
frame, the inode image, the directory blocks.

## Total accesses

Reads and writes are total: every address has a byte. Bounds are not part of the definitions but
hypotheses of the theorems that need them, and each theorem says which range it talks about.

## Main definitions

* `Bytes` — a memory
* `r16`, `r32`, `w16`, `w32` — little-endian words
* `memset`, `memcpy` — ranges

## Main results

* `r32_w32_self`, `r32_w32_of_disjoint` — read after write
* `r32_congr` and its companions — a word depends only on its own bytes
-/

namespace Aurisys

/-- A byte memory: every address holds a byte. -/
abbrev Bytes := ℕ → UInt8

namespace Bytes

/-! ## Words -/

/-- The 16-bit word at `p`. -/
def r16 (m : Bytes) (p : ℕ) : ℕ := (m p).toNat + (m (p + 1)).toNat * 2 ^ 8

/-- The 32-bit word at `p`. -/
def r32 (m : Bytes) (p : ℕ) : ℕ :=
  (m p).toNat + (m (p + 1)).toNat * 2 ^ 8 + (m (p + 2)).toNat * 2 ^ 16
    + (m (p + 3)).toNat * 2 ^ 24

/-- Store one byte. -/
def w8 (m : Bytes) (p v : ℕ) : Bytes := fun a => if a = p then UInt8.ofNat v else m a

/-- Store `v` modulo `2 ^ 16` at `p`. -/
def w16 (m : Bytes) (p v : ℕ) : Bytes := fun a =>
  if a = p then UInt8.ofNat v else if a = p + 1 then UInt8.ofNat (v / 2 ^ 8) else m a

/-- Store `v` modulo `2 ^ 32` at `p`. -/
def w32 (m : Bytes) (p v : ℕ) : Bytes := fun a =>
  if a = p then UInt8.ofNat v
  else if a = p + 1 then UInt8.ofNat (v / 2 ^ 8)
  else if a = p + 2 then UInt8.ofNat (v / 2 ^ 16)
  else if a = p + 3 then UInt8.ofNat (v / 2 ^ 24)
  else m a

theorem r16_lt (m : Bytes) (p : ℕ) : r16 m p < 2 ^ 16 := by
  have h0 := (m p).toNat_lt
  have h1 := (m (p + 1)).toNat_lt
  simp only [r16]
  omega

theorem r32_lt (m : Bytes) (p : ℕ) : r32 m p < 2 ^ 32 := by
  have h0 := (m p).toNat_lt
  have h1 := (m (p + 1)).toNat_lt
  have h2 := (m (p + 2)).toNat_lt
  have h3 := (m (p + 3)).toNat_lt
  simp only [r32]
  omega

/-- A 32-bit word is two of 16 bits. -/
theorem r32_eq (m : Bytes) (p : ℕ) : r32 m p = r16 m p + r16 m (p + 2) * 2 ^ 16 := by
  simp only [r32, r16]
  ring

/-- A 16-bit word depends only on its two bytes. -/
theorem r16_congr {m m' : Bytes} {p p' : ℕ} (h : ∀ i < 2, m' (p' + i) = m (p + i)) :
    r16 m' p' = r16 m p := by
  have h0 : m' p' = m p := h 0 (by omega)
  rw [r16, r16, h0, h 1 (by omega)]

/-- A 32-bit word depends only on its four bytes. -/
theorem r32_congr {m m' : Bytes} {p p' : ℕ} (h : ∀ i < 4, m' (p' + i) = m (p + i)) :
    r32 m' p' = r32 m p := by
  have h0 : m' p' = m p := h 0 (by omega)
  rw [r32, r32, h0, h 1 (by omega), h 2 (by omega), h 3 (by omega)]

theorem w8_of_ne {m : Bytes} {p v a : ℕ} (h : a ≠ p) : w8 m p v a = m a := if_neg h

theorem w16_of_lt_or_ge {m : Bytes} {p v a : ℕ} (h : a < p ∨ p + 2 ≤ a) :
    w16 m p v a = m a := by
  rw [w16, if_neg (by omega), if_neg (by omega)]

theorem w32_of_lt_or_ge {m : Bytes} {p v a : ℕ} (h : a < p ∨ p + 4 ≤ a) :
    w32 m p v a = m a := by
  rw [w32, if_neg (by omega), if_neg (by omega), if_neg (by omega), if_neg (by omega)]

/-- **Read after write**, 16 bits. -/
@[simp] theorem r16_w16_self (m : Bytes) (p v : ℕ) : r16 (w16 m p v) p = v % 2 ^ 16 := by
  have h1 : w16 m p v (p + 1) = UInt8.ofNat (v / 2 ^ 8) := by
    rw [w16, if_neg (by omega), if_pos rfl]
  have h0 : w16 m p v p = UInt8.ofNat v := if_pos rfl
  rw [r16, h0, h1]
  simp only [UInt8.toNat_ofNat']
  omega

/-- **Read after write**, 32 bits. -/
@[simp] theorem r32_w32_self (m : Bytes) (p v : ℕ) : r32 (w32 m p v) p = v % 2 ^ 32 := by
  have h0 : w32 m p v p = UInt8.ofNat v := if_pos rfl
  have h1 : w32 m p v (p + 1) = UInt8.ofNat (v / 2 ^ 8) := by
    rw [w32, if_neg (by omega), if_pos rfl]
  have h2 : w32 m p v (p + 2) = UInt8.ofNat (v / 2 ^ 16) := by
    rw [w32, if_neg (by omega), if_neg (by omega), if_pos rfl]
  have h3 : w32 m p v (p + 3) = UInt8.ofNat (v / 2 ^ 24) := by
    rw [w32, if_neg (by omega), if_neg (by omega), if_neg (by omega), if_pos rfl]
  rw [r32, h0, h1, h2, h3]
  simp only [UInt8.toNat_ofNat']
  omega

/-- **Read elsewhere.** A 32-bit write leaves the disjoint words alone. -/
theorem r32_w32_of_disjoint {m : Bytes} {p q v : ℕ} (h : q + 4 ≤ p ∨ p + 4 ≤ q) :
    r32 (w32 m p v) q = r32 m q :=
  r32_congr fun i hi => w32_of_lt_or_ge (by omega)

theorem r32_w16_of_disjoint {m : Bytes} {p q v : ℕ} (h : q + 4 ≤ p ∨ p + 2 ≤ q) :
    r32 (w16 m p v) q = r32 m q :=
  r32_congr fun i hi => w16_of_lt_or_ge (by omega)

theorem r16_w32_of_disjoint {m : Bytes} {p q v : ℕ} (h : q + 2 ≤ p ∨ p + 4 ≤ q) :
    r16 (w32 m p v) q = r16 m q :=
  r16_congr fun i hi => w32_of_lt_or_ge (by omega)

theorem r16_w16_of_disjoint {m : Bytes} {p q v : ℕ} (h : q + 2 ≤ p ∨ p + 2 ≤ q) :
    r16 (w16 m p v) q = r16 m q :=
  r16_congr fun i hi => w16_of_lt_or_ge (by omega)

/-- Aligned words are either the same word or disjoint, so one equation covers both. -/
theorem r32_w32_of_dvd {m : Bytes} {p q v : ℕ} (hp : 4 ∣ p) (hq : 4 ∣ q) :
    r32 (w32 m p v) q = if q = p then v % 2 ^ 32 else r32 m q := by
  split
  · next h => rw [h, r32_w32_self]
  · next h => exact r32_w32_of_disjoint (by omega)

/-! ## Ranges -/

/-- Fill `n` bytes from `p` with `c`. -/
def memset (m : Bytes) (p : ℕ) (c : UInt8) (n : ℕ) : Bytes := fun a =>
  if p ≤ a ∧ a < p + n then c else m a

/-- Copy `n` bytes of `src` from `q` to `p`. The bytes copied are those of `src` before the copy;
this is the byte loop whenever the two ranges do not overlap. -/
def memcpy (m : Bytes) (p : ℕ) (src : Bytes) (q n : ℕ) : Bytes := fun a =>
  if p ≤ a ∧ a < p + n then src (q + (a - p)) else m a

theorem memset_of_lt_or_ge {m : Bytes} {p n a : ℕ} {c : UInt8} (h : a < p ∨ p + n ≤ a) :
    memset m p c n a = m a := if_neg (by omega)

theorem memcpy_of_lt_or_ge {m src : Bytes} {p q n a : ℕ} (h : a < p ∨ p + n ≤ a) :
    memcpy m p src q n a = m a := if_neg (by omega)

theorem memcpy_of_lt {m s : Bytes} {p q n i : ℕ} (h : i < n) :
    memcpy m p s q n (p + i) = s (q + i) := by
  rw [memcpy, if_pos (by omega), Nat.add_sub_cancel_left]

/-- A copy to the beginning. -/
theorem memcpy_zero_of_lt {m src : Bytes} {q n i : ℕ} (h : i < n) :
    memcpy m 0 src q n i = src (q + i) := by
  have hcopy := memcpy_of_lt (m := m) (p := 0) (s := src) (q := q) h
  rwa [Nat.zero_add] at hcopy

end Bytes

end Aurisys
