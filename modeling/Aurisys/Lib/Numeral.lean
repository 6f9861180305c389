import Mathlib.Data.Nat.Digits.Lemmas

/-!
# Numerals

The digits of a number as they are written: the first one first, and one zero for zero.

## Main definitions

* `numeral b n` — the digits of `n` to the base `b`

## Main results

* `numeral_of_lt` — one digit
* `numeral_eq_cons` — the first digit
* `foldl_numeral` — what the digits come to
* `eq_zeros_append_numeral` — and which other digits come to the same
-/

namespace Aurisys

variable {b n d : ℕ}

/-- The digits of `n` to the base `b`, the first one first. -/
def numeral (b n : ℕ) : List ℕ := if n = 0 then [0] else (Nat.digits b n).reverse

theorem numeral_zero (b : ℕ) : numeral b 0 = [0] := if_pos rfl

theorem numeral_of_ne (hn : n ≠ 0) : numeral b n = (Nat.digits b n).reverse := if_neg hn

theorem numeral_of_lt (h : n < b) : numeral b n = [n] := by
  by_cases hn : n = 0
  · rw [hn, numeral_zero]
  · rw [numeral_of_ne hn, Nat.digits_of_lt b n hn h, List.reverse_singleton]

theorem numeral_ne_nil (b n : ℕ) : numeral b n ≠ [] := by
  by_cases hn : n = 0
  · rw [hn, numeral_zero]
    exact List.cons_ne_nil 0 []
  · rw [numeral_of_ne hn]
    exact fun h => hn (Nat.digits_eq_nil_iff_eq_zero.mp (List.reverse_eq_nil_iff.mp h))

theorem lt_of_mem_numeral (hb : 1 < b) (hd : d ∈ numeral b n) : d < b := by
  by_cases hn : n = 0
  · rw [hn, numeral_zero] at hd
    rw [List.mem_singleton.mp hd]
    omega
  · rw [numeral_of_ne hn] at hd
    exact Nat.digits_lt_base hb (List.mem_reverse.mp hd)

/-- The first digit of a number is not zero. -/
theorem numeral_eq_cons (hn : n ≠ 0) : ∃ d l, numeral b n = d :: l ∧ d ≠ 0 := by
  have h : Nat.digits b n ≠ [] := fun h => hn (Nat.digits_eq_nil_iff_eq_zero.mp h)
  refine ⟨(Nat.digits b n).getLast h, (Nat.digits b n).dropLast.reverse, ?_,
    Nat.getLast_digit_ne_zero b hn⟩
  rw [numeral_of_ne hn, ← List.reverse_concat, List.dropLast_concat_getLast]

/-- **What the digits come to.** -/
theorem foldl_numeral (b n : ℕ) : (numeral b n).foldl (fun a d => a * b + d) 0 = n := by
  by_cases hn : n = 0
  · rw [hn, numeral_zero]
    simp
  · rw [numeral_of_ne hn, List.foldl_reverse]
    have h := Nat.ofDigits_digits b n
    rw [Nat.ofDigits_eq_foldr] at h
    calc (Nat.digits b n).foldr (fun d a => a * b + d) 0
        = (Nat.digits b n).foldr (fun d a => d + b * a) 0 := by
          congr 1
          funext d a
          rw [Nat.mul_comm, Nat.add_comm]
      _ = n := h

/-- Digits are a number behind zeros. -/
theorem eq_zeros_append_numeral (hb : 1 < b) {l : List ℕ} (hl : l ≠ []) (hd : ∀ d ∈ l, d < b) :
    ∃ z, l = List.replicate z 0 ++ numeral b (l.foldl (fun a d => a * b + d) 0) := by
  induction l with
  | nil => exact absurd rfl hl
  | cons d l ih =>
    by_cases h0 : d = 0
    · subst h0
      by_cases hnil : l = []
      · subst hnil
        refine ⟨0, ?_⟩
        rw [List.foldl_cons, List.foldl_nil, Nat.zero_mul, Nat.zero_add, numeral_zero]
        rfl
      · obtain ⟨z, hz⟩ := ih hnil fun d hd' => hd d (List.mem_cons_of_mem _ hd')
        refine ⟨z + 1, ?_⟩
        rw [List.foldl_cons, Nat.zero_mul, Nat.add_zero, List.replicate_succ,
          List.cons_append, ← hz]
    · -- The first digit is not zero, so these are the digits of the number.
      have hval : (d :: l).foldl (fun a d => a * b + d) 0 = Nat.ofDigits b (d :: l).reverse := by
        rw [Nat.ofDigits_eq_foldr, List.foldr_reverse]
        congr 1
        funext a d
        rw [Nat.mul_comm, Nat.add_comm]
        rfl
      have hdig : Nat.digits b (Nat.ofDigits b (d :: l).reverse) = (d :: l).reverse := by
        refine Nat.digits_ofDigits b hb _ (fun x hx => hd x (List.mem_reverse.mp hx)) fun hne => ?_
        rw [List.getLast_reverse]
        exact h0
      have hne : Nat.ofDigits b (d :: l).reverse ≠ 0 := by
        intro h
        rw [h, Nat.digits_zero] at hdig
        exact absurd hdig.symm (by simp)
      refine ⟨0, ?_⟩
      rw [hval, numeral_of_ne hne, hdig, List.reverse_reverse]
      rfl

end Aurisys
