import Aurisys.Lib.Numeral

/-!
# Decimal numbers as text

The bytes of a number to the base ten, and what a text of digits comes to. A text of digits is a
number behind zeros.

## Main definitions

* `decimal n`, `isDigit`, `value`

## Main results

* `value_decimal`, `decimal_injective`
* `eq_zeros_append_decimal` — what else comes to the same number
* `length_decimal_le`
-/

namespace Aurisys

namespace Decimal

variable {n d k : ℕ} {s t : List UInt8} {c : UInt8}

/-- The byte of a digit. -/
def digit (d : ℕ) : UInt8 := UInt8.ofNat (0x30 + d)

/-- A number to the base ten. -/
def decimal (n : ℕ) : List UInt8 := (numeral 10 n).map digit

def isDigit (c : UInt8) : Bool := 0x30 ≤ c ∧ c ≤ 0x39

/-- What the digits come to, from `v` on. -/
def valueFrom (v : ℕ) (s : List UInt8) : ℕ := s.foldl (fun v c => v * 10 + (c.toNat - 0x30)) v

def value (s : List UInt8) : ℕ := valueFrom 0 s

@[simp] theorem valueFrom_nil (v : ℕ) : valueFrom v [] = v := rfl

@[simp] theorem valueFrom_cons (v : ℕ) (c : UInt8) (s : List UInt8) :
    valueFrom v (c :: s) = valueFrom (v * 10 + (c.toNat - 0x30)) s := by
  rw [valueFrom, List.foldl_cons, valueFrom]

theorem le_valueFrom (v : ℕ) (s : List UInt8) : v ≤ valueFrom v s := by
  induction s generalizing v with
  | nil => exact le_rfl
  | cons c s ih =>
    rw [valueFrom_cons]
    have := ih (v * 10 + (c.toNat - 0x30))
    omega

theorem digit_toNat (h : d < 10) : (digit d).toNat = 0x30 + d := by
  rw [digit, UInt8.toNat_ofNat']
  omega

theorem isDigit_iff : isDigit c = true ↔ 0x30 ≤ c.toNat ∧ c.toNat ≤ 0x39 := by
  simp [isDigit, UInt8.le_iff_toNat_le]

theorem isDigit_digit (h : d < 10) : isDigit (digit d) = true := by
  rw [isDigit_iff, digit_toNat h]
  omega

theorem digit_sub (h : isDigit c = true) : digit (c.toNat - 0x30) = c := by
  rw [isDigit_iff] at h
  refine UInt8.toNat_inj.mp ?_
  rw [digit_toNat (by omega)]
  omega

/-- Of digits, the value is that of the numbers. -/
theorem valueFrom_map_digit {l : List ℕ} (hl : ∀ d ∈ l, d < 10) (v : ℕ) :
    valueFrom v (l.map digit) = l.foldl (fun a d => a * 10 + d) v := by
  induction l generalizing v with
  | nil => rfl
  | cons d l ih =>
    rw [List.map_cons, valueFrom_cons, digit_toNat (hl d List.mem_cons_self),
      Nat.add_sub_cancel_left,
      ih fun d hd => hl d (List.mem_cons_of_mem _ hd), List.foldl_cons]

theorem decimal_ne_nil (n : ℕ) : decimal n ≠ [] := fun h =>
  numeral_ne_nil 10 n (List.map_eq_nil_iff.mp h)

theorem isDigit_of_mem_decimal (h : c ∈ decimal n) : isDigit c = true := by
  obtain ⟨d, hd, rfl⟩ := List.mem_map.mp h
  exact isDigit_digit (lt_of_mem_numeral (by decide) hd)

/-- **Reading back what was written.** -/
theorem value_decimal (n : ℕ) : value (decimal n) = n := by
  rw [value, decimal, valueFrom_map_digit fun d => lt_of_mem_numeral (by decide), foldl_numeral]

theorem decimal_injective : Function.Injective decimal := fun m n h => by
  rw [← value_decimal m, h, value_decimal]

/-- Zeros in front change nothing. -/
theorem value_zeros_append (z : ℕ) (s : List UInt8) :
    value (List.replicate z 0x30 ++ s) = value s := by
  induction z with
  | zero => rfl
  | succ z ih =>
    rw [List.replicate_succ, List.cons_append, value, valueFrom_cons]
    exact ih

/-- **A text of digits is a number behind zeros.** -/
theorem eq_zeros_append_decimal (hs : s ≠ []) (hd : ∀ c ∈ s, isDigit c = true) :
    ∃ z, s = List.replicate z 0x30 ++ decimal (value s) := by
  have hlt : ∀ d ∈ s.map fun c => c.toNat - 0x30, d < 10 := by
    intro d h
    obtain ⟨c, hc, rfl⟩ := List.mem_map.mp h
    have := isDigit_iff.mp (hd c hc)
    omega
  have hback : (s.map fun c => c.toNat - 0x30).map digit = s := by
    rw [List.map_map]
    exact (List.map_congr_left fun c hc => digit_sub (hd c hc)).trans (List.map_id s)
  have hval : value s = (s.map fun c => c.toNat - 0x30).foldl (fun a d => a * 10 + d) 0 := by
    rw [← valueFrom_map_digit hlt, hback, value]
  obtain ⟨z, hz⟩ := eq_zeros_append_numeral (by decide) (by simpa using hs) hlt
  refine ⟨z, ?_⟩
  calc s = (s.map fun c => c.toNat - 0x30).map digit := hback.symm
    _ = List.replicate z 0x30 ++ decimal (value s) := by
      rw [hval]
      nth_rewrite 1 [hz]
      rw [List.map_append, List.map_replicate, decimal]
      rfl

/-- A number below `10 ^ k` has `k` digits at most. -/
theorem length_decimal_le (hk : 0 < k) (h : n < 10 ^ k) : (decimal n).length ≤ k := by
  rw [decimal, List.length_map]
  by_cases hn : n = 0
  · rw [hn, numeral_zero]
    exact hk
  · rw [numeral_of_ne hn, List.length_reverse]
    exact (Nat.digits_length_le_iff (by decide) n).mpr h

end Decimal

end Aurisys
