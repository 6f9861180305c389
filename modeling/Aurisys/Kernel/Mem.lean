import Aurisys.Lib.Bytes
import Mathlib.Data.List.Basic

/-!
# Moving bytes

`mem.cpp` moves bytes one at a time. `memcpy` goes upwards, and where the destination begins inside
the source it reads what it has written: it repeats the bytes in front of the destination. `memmove`
goes the way that never does.

`Bytes.memcpy` is the copy through a buffer, which the rest of the development uses. Here the loops
are compared with it. An address and a length are numbers, and nothing goes round the end of the
memory.

## Main definitions

* `upwards`, `downwards` — the loops
* `memcpy`, `memmove`

## Main results

* `memcpy_apply` — what `memcpy` makes, also where the ranges overlap
* `memcpy_buffered_iff`, `memmove_buffered`
-/

namespace Aurisys

namespace Mem

/-- Bytes `i` to `i + n - 1`, upwards. -/
def upwards (d s : ℕ) : ℕ → ℕ → Bytes → Bytes
  | 0, _, m => m
  | n + 1, i, m => upwards d s n (i + 1) (Function.update m (d + i) (m (s + i)))

/-- Bytes `n - 1` to 0, downwards. -/
def downwards (d s : ℕ) : ℕ → Bytes → Bytes
  | 0, m => m
  | i + 1, m => downwards d s i (Function.update m (d + i) (m (s + i)))

def memcpy (m : Bytes) (d s n : ℕ) : Bytes := upwards d s n 0 m

def memmove (m : Bytes) (d s n : ℕ) : Bytes :=
  if d < s then upwards d s n 0 m else if s < d then downwards d s n m else m

variable {m m' : Bytes} {d s n i k : ℕ}

/-! ## The loops -/

/-- Going upwards from behind the source: byte `i` comes from `i` modulo the distance, because what
is read from the destination on has been written before. -/
structure Repeats (m : Bytes) (d s k : ℕ) (m' : Bytes) : Prop where
  here : ∀ i < k, m' (d + i) = m (s + i % (d - s))
  other : ∀ a, a < d ∨ d + k ≤ a → m' a = m a

theorem Repeats.step (h : Repeats m d s k m') (hlt : s < d) :
    Repeats m d s (k + 1) (Function.update m' (d + k) (m' (s + k))) := by
  have hbyte : m' (s + k) = m (s + k % (d - s)) := by
    by_cases hin : s + k < d
    · rw [h.other _ (.inl hin), Nat.mod_eq_of_lt (by omega)]
    · have hk : s + k = d + (k - (d - s)) := by omega
      rw [hk, h.here _ (by omega), ← Nat.mod_eq_sub_mod (by omega)]
  refine ⟨fun i hi => ?_, fun a ha => ?_⟩
  · rcases Nat.lt_succ_iff_lt_or_eq.mp hi with hi | rfl
    · rw [Function.update_of_ne (by omega), h.here i hi]
    · rw [Function.update_self, hbyte]
  · rw [Function.update_of_ne (by omega), h.other a (by omega)]

theorem repeats_upwards (h : Repeats m d s k m') (hlt : s < d) (n : ℕ) :
    Repeats m d s (k + n) (upwards d s n k m') := by
  induction n generalizing k m' with
  | zero => exact h
  | succ n ih =>
    have hrest := ih (h.step hlt)
    rwa [Nat.add_assoc, Nat.add_comm 1 n] at hrest

/-- The destination has the bytes of the source, the others are as they were. -/
structure Buffered (m : Bytes) (d s lo hi : ℕ) (m' : Bytes) : Prop where
  here : ∀ i, lo ≤ i → i < hi → m' (d + i) = m (s + i)
  other : ∀ a, a < d + lo ∨ d + hi ≤ a → m' a = m a

theorem Buffered.eq (h : Buffered m d s 0 n m') : m' = Bytes.memcpy m d m s n := by
  funext a
  by_cases ha : d ≤ a ∧ a < d + n
  · obtain ⟨i, rfl⟩ := Nat.exists_eq_add_of_le ha.1
    rw [h.here i (Nat.zero_le i) (by omega), Bytes.memcpy_of_lt (by omega)]
  · rw [h.other a (by omega), Bytes.memcpy_of_lt_or_ge (by omega)]

/-- Upwards, where the destination is in front of the source. -/
theorem buffered_upwards (h : Buffered m d s 0 k m') (hle : d ≤ s) (n : ℕ) :
    Buffered m d s 0 (k + n) (upwards d s n k m') := by
  induction n generalizing k m' with
  | zero => exact h
  | succ n ih =>
    have hstep : Buffered m d s 0 (k + 1) (Function.update m' (d + k) (m' (s + k))) := by
      refine ⟨fun i hlo hi => ?_, fun a ha => ?_⟩
      · rcases Nat.lt_succ_iff_lt_or_eq.mp hi with hi | rfl
        · rw [Function.update_of_ne (by omega), h.here i hlo hi]
        · rw [Function.update_self, h.other _ (by omega)]
      · rw [Function.update_of_ne (by omega), h.other a (by omega)]
    have hrest := ih hstep
    rwa [Nat.add_assoc, Nat.add_comm 1 n] at hrest

/-- Downwards, where it is behind. -/
theorem buffered_downwards (h : Buffered m d s k n m') (hle : s ≤ d) (hk : k ≤ n) :
    Buffered m d s 0 n (downwards d s k m') := by
  induction k generalizing m' with
  | zero => exact h
  | succ k ih =>
    refine ih ⟨fun i hlo hi => ?_, fun a ha => ?_⟩ (by omega)
    · rcases Nat.eq_or_lt_of_le hlo with rfl | hlt
      · rw [Function.update_self, h.other _ (by omega)]
      · rw [Function.update_of_ne (by omega), h.here i hlt hi]
    · rw [Function.update_of_ne (by omega), h.other a (by omega)]

/-! ## The functions -/

/-- **What `memcpy` makes** where the destination begins behind the source. -/
theorem memcpy_apply (m : Bytes) (hlt : s < d) (hi : i < n) :
    memcpy m d s n (d + i) = m (s + i % (d - s)) := by
  have hstart : Repeats m d s 0 m := ⟨fun _ h => absurd h (Nat.not_lt_zero _), fun _ _ => rfl⟩
  exact (repeats_upwards hstart hlt n).here i (by omega)

theorem memcpy_buffered (m : Bytes) (h : d ≤ s ∨ s + n ≤ d) :
    memcpy m d s n = Bytes.memcpy m d m s n := by
  rcases le_or_gt d s with hle | hlt
  · have hstart : Buffered m d s 0 0 m :=
      ⟨fun _ _ h => absurd h (Nat.not_lt_zero _), fun _ _ => rfl⟩
    have hrun := buffered_upwards hstart hle n
    rw [Nat.zero_add] at hrun
    exact hrun.eq
  · have hstart : Repeats m d s 0 m := ⟨fun _ h => absurd h (Nat.not_lt_zero _), fun _ _ => rfl⟩
    obtain ⟨hhere, hother⟩ := repeats_upwards hstart hlt n
    rw [Nat.zero_add] at hhere hother
    refine Buffered.eq ⟨fun i _ hi => ?_, fun a ha => hother a (by omega)⟩
    exact (hhere i hi).trans (by rw [Nat.mod_eq_of_lt (by omega)])

/-- **`memcpy` is a copy through a buffer**, whatever the bytes are, just when the destination does
not begin inside the source. -/
theorem memcpy_buffered_iff : (∀ m, memcpy m d s n = Bytes.memcpy m d m s n) ↔
    d ≤ s ∨ s + n ≤ d := by
  refine ⟨fun h => ?_, fun h m => memcpy_buffered m h⟩
  by_contra hno
  -- One byte of the source is 1. It comes up again a distance further on.
  have hone := congrFun (h fun a => if a = s then 1 else 0) (d + (d - s))
  rw [memcpy_apply _ (by omega) (by omega), Nat.mod_self, Bytes.memcpy_of_lt (by omega)] at hone
  simp only [Nat.add_zero, if_true] at hone
  rw [if_neg (by omega)] at hone
  exact absurd hone (by decide)

/-- **`memmove`** is a copy through a buffer wherever the ranges are. -/
theorem memmove_buffered (m : Bytes) (d s n : ℕ) : memmove m d s n = Bytes.memcpy m d m s n := by
  rw [memmove]
  split
  · next h => exact memcpy_buffered m (.inl h.le)
  · split
    · next h =>
      exact (buffered_downwards ⟨fun i hlo hi => absurd hi (by omega),
        fun _ _ => rfl⟩ h.le le_rfl).eq
    · next h₁ h₂ =>
      obtain rfl : d = s := by omega
      exact Buffered.eq ⟨fun _ _ _ => rfl, fun _ _ => rfl⟩

end Mem

end Aurisys
