import Aurisys.Lib.Bytes
import Mathlib.Data.Finset.Card
import Mathlib.Data.Finset.Range
import Mathlib.Order.Interval.Finset.Nat

/-!
# Bitmaps

A memory read as bits: bit `i` is bit `i % 8` of byte `i / 8`. A set bit says that something is in
use.

## Main definitions

* `Bytes.bit`, `Bytes.setBits`, `Bytes.clearBits`
* `Bytes.clearCount` — how many of the first bits are clear

## Main results

* `Bytes.bit_setBits`, `Bytes.bit_clearBits`
* `Bytes.clearCount_setBits`
-/

namespace Aurisys

namespace Bytes

def bit (m : Bytes) (i : ℕ) : Bool := (m (i / 8)).toNat.testBit (i % 8)

def setBit (m : Bytes) (i : ℕ) : Bytes :=
  w8 m (i / 8) ((m (i / 8)).toNat ||| 2 ^ (i % 8))

def clearBit (m : Bytes) (i : ℕ) : Bytes :=
  w8 m (i / 8) ((m (i / 8)).toNat &&& (255 ^^^ 2 ^ (i % 8)))

/-- Bits `first` to `first + n - 1` are set, one after the other. -/
def setBits (m : Bytes) (first n : ℕ) : Bytes :=
  (List.range n).foldl (fun m k => m.setBit (first + k)) m

def clearBits (m : Bytes) (first n : ℕ) : Bytes :=
  (List.range n).foldl (fun m k => m.clearBit (first + k)) m

theorem bit_w8_self (m : Bytes) {i j : ℕ} (v : ℕ) (h : j / 8 = i / 8) :
    bit (w8 m (i / 8) v) j = v.testBit (j % 8) := by
  have hlt : j % 8 < 8 := Nat.mod_lt _ (by decide)
  rw [bit, w8, if_pos h, UInt8.toNat_ofNat', Nat.testBit_mod_two_pow, decide_eq_true hlt,
    Bool.true_and]

theorem bit_w8_of_ne (m : Bytes) {i j : ℕ} (v : ℕ) (h : j / 8 ≠ i / 8) :
    bit (w8 m (i / 8) v) j = bit m j := by
  rw [bit, w8, if_neg h, bit]

/-- Two bits of one byte are the same or have different places in it. -/
theorem mod_eq_iff {i j : ℕ} (h : j / 8 = i / 8) : i % 8 = j % 8 ↔ j = i := by omega

theorem bit_setBit (m : Bytes) (i j : ℕ) : (m.setBit i).bit j = (decide (j = i) || m.bit j) := by
  rw [setBit]
  by_cases h : j / 8 = i / 8
  · rw [bit_w8_self m _ h, Nat.testBit_or, Nat.testBit_two_pow, bit, h, Bool.or_comm]
    simp only [mod_eq_iff h]
  · rw [bit_w8_of_ne m _ h, decide_eq_false fun he => h (by rw [he]), Bool.false_or]

theorem bit_clearBit (m : Bytes) (i j : ℕ) :
    (m.clearBit i).bit j = (!decide (j = i) && m.bit j) := by
  rw [clearBit]
  by_cases h : j / 8 = i / 8
  · have h255 : (255 : ℕ).testBit (j % 8) = true := by
      have h8 : (255 : ℕ) = 2 ^ 8 - 1 := by decide
      rw [h8, Nat.testBit_two_pow_sub_one]
      exact decide_eq_true (Nat.mod_lt _ (by decide))
    rw [bit_w8_self m _ h, Nat.testBit_and, Nat.testBit_xor, h255, Nat.testBit_two_pow, bit, h,
      Bool.and_comm, Bool.true_xor]
    simp only [mod_eq_iff h]
  · rw [bit_w8_of_ne m _ h, decide_eq_false fun he => h (by rw [he]), Bool.not_false, Bool.true_and]

theorem bit_setBits (m : Bytes) (first n j : ℕ) :
    (m.setBits first n).bit j = (decide (first ≤ j ∧ j < first + n) || m.bit j) := by
  induction n with
  | zero =>
    rw [decide_eq_false (by omega), Bool.false_or]
    rfl
  | succ n ih =>
    rw [setBits, List.range_succ, List.foldl_append, List.foldl_cons, List.foldl_nil, ← setBits,
      bit_setBit, ih, ← Bool.or_assoc, ← Bool.decide_or]
    congr 2
    exact propext (by omega)

theorem bit_clearBits (m : Bytes) (first n j : ℕ) :
    (m.clearBits first n).bit j = (!decide (first ≤ j ∧ j < first + n) && m.bit j) := by
  induction n with
  | zero =>
    rw [decide_eq_false (by omega), Bool.not_false, Bool.true_and]
    rfl
  | succ n ih =>
    rw [clearBits, List.range_succ, List.foldl_append, List.foldl_cons, List.foldl_nil, ← clearBits,
      bit_clearBit, ih, ← Bool.and_assoc, ← Bool.not_or, ← Bool.decide_or]
    congr 3
    exact propext (by omega)

theorem bit_setBits_of_mem {m : Bytes} {first n j : ℕ} (h : first ≤ j ∧ j < first + n) :
    (m.setBits first n).bit j = true := by
  rw [bit_setBits, decide_eq_true h, Bool.true_or]

theorem bit_setBits_of_not {m : Bytes} {first n j : ℕ} (h : ¬(first ≤ j ∧ j < first + n)) :
    (m.setBits first n).bit j = m.bit j := by
  rw [bit_setBits, decide_eq_false h, Bool.false_or]

theorem bit_clearBits_of_not {m : Bytes} {first n j : ℕ} (h : ¬(first ≤ j ∧ j < first + n)) :
    (m.clearBits first n).bit j = m.bit j := by
  rw [bit_clearBits, decide_eq_false h, Bool.not_false, Bool.true_and]

/-- A bit depends on one byte. -/
theorem bit_congr {m m' : Bytes} {i : ℕ} (h : m' (i / 8) = m (i / 8)) : m'.bit i = m.bit i := by
  rw [bit, bit, h]

/-- A byte of the result depends on that byte. -/
theorem setBits_congr {m m' : Bytes} {a : ℕ} (first n : ℕ) (h : m a = m' a) :
    m.setBits first n a = m'.setBits first n a := by
  induction n with
  | zero => exact h
  | succ n ih =>
    rw [setBits, setBits, List.range_succ, List.foldl_append, List.foldl_append,
      ← setBits, ← setBits]
    simp only [List.foldl_cons, List.foldl_nil, setBit, w8]
    split
    · next ha => rw [← ha, ih]
    · exact ih

theorem clearBits_congr {m m' : Bytes} {a : ℕ} (first n : ℕ) (h : m a = m' a) :
    m.clearBits first n a = m'.clearBits first n a := by
  induction n with
  | zero => exact h
  | succ n ih =>
    rw [clearBits, clearBits, List.range_succ, List.foldl_append, List.foldl_append, ← clearBits,
      ← clearBits]
    simp only [List.foldl_cons, List.foldl_nil, clearBit, w8]
    split
    · next ha => rw [← ha, ih]
    · exact ih

theorem setBits_of_ge {m : Bytes} {first n k a : ℕ} (h : first + n ≤ 8 * k) (ha : k ≤ a) :
    m.setBits first n a = m a := by
  induction n with
  | zero => rfl
  | succ n ih =>
    rw [setBits, List.range_succ, List.foldl_append, ← setBits]
    simp only [List.foldl_cons, List.foldl_nil, setBit]
    rw [w8_of_ne (by omega), ih (by omega)]

theorem clearBits_of_ge {m : Bytes} {first n k a : ℕ} (h : first + n ≤ 8 * k) (ha : k ≤ a) :
    m.clearBits first n a = m a := by
  induction n with
  | zero => rfl
  | succ n ih =>
    rw [clearBits, List.range_succ, List.foldl_append, ← clearBits]
    simp only [List.foldl_cons, List.foldl_nil, clearBit]
    rw [w8_of_ne (by omega), ih (by omega)]

/-- One bit is a run of one. -/
theorem setBits_one (m : Bytes) (i : ℕ) : m.setBits i 1 = m.setBit i := rfl

theorem clearBits_one (m : Bytes) (i : ℕ) : m.clearBits i 1 = m.clearBit i := rfl

/-! ## Counting -/

/-- The clear ones among the first `n` bits. -/
def clears (m : Bytes) (n : ℕ) : Finset ℕ := (Finset.range n).filter fun i => m.bit i = false

def clearCount (m : Bytes) (n : ℕ) : ℕ := (m.clears n).card

theorem mem_clears {m : Bytes} {n i : ℕ} : i ∈ m.clears n ↔ i < n ∧ m.bit i = false := by
  rw [clears, Finset.mem_filter, Finset.mem_range]

/-- **Taking**: so many fewer are clear. -/
theorem clearCount_setBits {m : Bytes} {first n k : ℕ} (hk : first + k ≤ n)
    (h : ∀ i, first ≤ i → i < first + k → m.bit i = false) :
    (m.setBits first k).clearCount n + k = m.clearCount n := by
  have hsub : Finset.Ico first (first + k) ⊆ m.clears n := by
    intro i hi
    obtain ⟨h₁, h₂⟩ := Finset.mem_Ico.mp hi
    exact mem_clears.mpr ⟨by omega, h i h₁ h₂⟩
  have he : (m.setBits first k).clears n = m.clears n \ Finset.Ico first (first + k) := by
    ext i
    rw [mem_clears, Finset.mem_sdiff, mem_clears, Finset.mem_Ico]
    by_cases hi : first ≤ i ∧ i < first + k
    · rw [bit_setBits_of_mem hi]
      exact iff_of_false (fun hn => Bool.noConfusion hn.2) fun hn => hn.2 hi
    · rw [bit_setBits_of_not hi]
      exact (and_iff_left hi).symm
  have hcard := Finset.card_sdiff_add_card_eq_card hsub
  rw [Nat.card_Ico, Nat.add_sub_cancel_left] at hcard
  rw [clearCount, he, hcard, clearCount]

end Bytes

end Aurisys
