import Aurisys.Kernel.Mem
import Aurisys.Lib.Strings

/-!
# Comparing and finding strings

`str.cpp` has the functions of C on strings that end with a zero. Two of them are compared here with
what they are on the lists of the bytes: `strncmp` is the order of the lists, and `strstr` finds the
leftmost occurrence.

Bytes are compared as numbers from 0 to 255, so a letter with the top bit set is behind all others.

## Main definitions

* `strncmp`
* `strstr` — without a zero in reach it would go on for `2 ^ 32` bytes

## Main results

* `strncmp_spec`, `strstr_spec`
-/

namespace Aurisys

open Bytes

namespace CStr

/-! ## Comparing -/

def strncmp (m : Bytes) : ℕ → ℕ → ℕ → ℤ
  | 0, _, _ => 0
  | n + 1, a, b =>
    if m a ≠ m b then (m a).toNat - (m b).toNat
    else if m a = 0 then 0
    else strncmp m n (a + 1) (b + 1)

variable {m m' : Bytes} {a b p q n i j d : ℕ} {s t : List UInt8} {c : UInt8}

/-- Two lists that begin with different bytes. -/
theorem heads_differ {x y : UInt8} (h : x ≠ y) : (((x.toNat : ℤ) - y.toNat = 0) ↔ x :: s = y :: t) ∧
    ((x.toNat : ℤ) - y.toNat < 0 ↔ x :: s < y :: t) := by
  have hne : x.toNat ≠ y.toNat := fun he => h (UInt8.toNat_inj.mp he)
  rw [List.cons_lt_cons_iff, UInt8.lt_iff_toNat_lt]
  refine ⟨⟨fun _ => by omega, fun he => absurd (List.cons_eq_cons.mp he).1 h⟩,
    fun _ => .inl (by omega), fun hlt => ?_⟩
  have := hlt.resolve_right fun he => h he.1
  omega

/-- Two lists that begin with the same byte. -/
theorem heads_same {x : UInt8} {z : ℤ} (h : (z = 0 ↔ s = t) ∧ (z < 0 ↔ s < t)) :
    (z = 0 ↔ x :: s = x :: t) ∧ (z < 0 ↔ x :: s < x :: t) := by
  simpa [List.cons_lt_cons_iff] using h

theorem toNat_pos (h : c ≠ 0) : 0 < c.toNat := by
  refine Nat.pos_of_ne_zero fun hz => h ?_
  exact UInt8.toNat_inj.mp hz

/-- **`strncmp`** is the order of the first `n` bytes. -/
theorem strncmp_spec (ha : IsStr m a s) (hb : IsStr m b t) (n : ℕ) :
    (strncmp m n a b = 0 ↔ s.take n = t.take n) ∧ (strncmp m n a b < 0 ↔ s.take n < t.take n) := by
  induction n generalizing a b s t with
  | zero => simp [strncmp]
  | succ n ih =>
    rw [strncmp]
    cases s with
    | nil =>
      have hz : m a = 0 := ha
      cases t with
      | nil =>
        have hz' : m b = 0 := hb
        simp [hz, hz']
      | cons y t =>
        obtain ⟨hy, hmb, -⟩ := hb
        have := toNat_pos hy
        rw [hz, hmb, if_pos hy.symm]
        simp only [List.take_nil, List.take_succ_cons, UInt8.toNat_zero]
        exact ⟨⟨fun h => by omega, fun h => by simp at h⟩, fun _ => List.nil_lt_cons _ _,
          fun _ => by omega⟩
    | cons x s =>
      obtain ⟨hx, hma, hs⟩ := ha
      cases t with
      | nil =>
        have hz' : m b = 0 := hb
        have := toNat_pos hx
        rw [hma, hz', if_pos hx]
        simp only [List.take_nil, List.take_succ_cons, UInt8.toNat_zero]
        exact ⟨⟨fun h => by omega, fun h => by simp at h⟩, fun h => by omega,
          fun h => absurd h (List.not_lt_nil _)⟩
      | cons y t =>
        obtain ⟨hy, hmb, ht⟩ := hb
        rw [hma, hmb, List.take_succ_cons, List.take_succ_cons]
        by_cases hxy : x = y
        · subst hxy
          rw [if_neg (not_not.mpr rfl), if_neg hx]
          exact heads_same (ih hs ht)
        · rw [if_pos hxy]
          exact heads_differ hxy

/-! ## Finding -/

/-- The inner loop of `strstr`: how far the two are the same. -/
def same (m : Bytes) : ℕ → ℕ → ℕ → ℕ
  | 0, _, _ => 0
  | n + 1, hay, needle =>
    if m hay ≠ 0 ∧ m hay = m needle then same m n (hay + 1) (needle + 1) + 1 else 0

/-- The outer loop of `strstr`. -/
def strstrUpTo (m : Bytes) (needle : ℕ) : ℕ → ℕ → Option ℕ
  | 0, _ => none
  | n + 1, hay =>
    if m hay = 0 then none
    else if m (needle + same m (2 ^ 32) hay needle) = 0 then some hay
    else strstrUpTo m needle n (hay + 1)

def strstr (m : Bytes) (hay needle : ℕ) : Option ℕ :=
  if m needle = 0 then some hay else strstrUpTo m needle (2 ^ 32) hay

theorem same_spec (ha : IsStr m a s) (hb : IsStr m b t) (hn : s.length < n) :
    m (b + same m n a b) = 0 ↔ t <+: s := by
  induction n generalizing a b s t with
  | zero => exact absurd hn (Nat.not_lt_zero _)
  | succ n ih =>
    rw [same]
    cases t with
    | nil =>
      have hz : m b = 0 := hb
      rw [if_neg fun h => h.1 (h.2.trans hz)]
      exact iff_of_true hz List.nil_prefix
    | cons y t =>
      obtain ⟨hy, hmb, ht⟩ := hb
      cases s with
      | nil =>
        rw [if_neg fun h => h.1 ha, Nat.add_zero, hmb]
        exact iff_of_false hy fun h => by simp at h
      | cons x s =>
        obtain ⟨hx, hma, hs⟩ := ha
        rw [hma, hmb, List.cons_prefix_cons]
        by_cases hxy : x = y
        · rw [if_pos ⟨hx, hxy⟩, ← ih hs ht (Nat.lt_of_succ_lt_succ hn),
            Nat.add_assoc, Nat.add_comm 1]
          simp [hxy]
        · rw [if_neg fun h => hxy h.2, Nat.add_zero, hmb]
          exact iff_of_false hy fun h => hxy h.1.symm

/-- Where the needle is found: at `i`, and nowhere in front of that. -/
structure Leftmost (s t : List UInt8) (i : ℕ) : Prop where
  here : t <+: s.drop i
  first : ∀ j < i, ¬t <+: s.drop j

theorem strstrUpTo_spec (ha : IsStr m a s) (hb : IsStr m b t) (ht : t ≠ []) (hs : s.length < n)
    (hs' : s.length < 2 ^ 32) : (∃ i, strstrUpTo m b n a = some (a + i) ∧ Leftmost s t i) ∨
      strstrUpTo m b n a = none ∧ ∀ j, ¬t <+: s.drop j := by
  induction n generalizing a s with
  | zero => exact absurd hs (Nat.not_lt_zero _)
  | succ n ih =>
    rw [strstrUpTo]
    cases s with
    | nil =>
      rw [if_pos (show m a = 0 from ha)]
      exact .inr ⟨rfl, fun j h => ht (by simpa using h)⟩
    | cons x s =>
      obtain ⟨hx, hma, hrest⟩ := ha
      have hsame := same_spec (show IsStr m a (x :: s) from ⟨hx, hma, hrest⟩) hb hs'
      rw [if_neg fun hz => hx (hma.symm.trans hz)]
      by_cases hpre : t <+: x :: s
      · rw [if_pos (hsame.mpr hpre)]
        exact .inl ⟨0, rfl, hpre, fun j hj => absurd hj (Nat.not_lt_zero j)⟩
      · rw [if_neg fun h => hpre (hsame.mp h)]
        have hnot : ∀ j, (∀ k < j, ¬t <+: s.drop k) → ∀ k < j + 1, ¬t <+: (x :: s).drop k := by
          intro j h k hk
          cases k with
          | zero => exact hpre
          | succ k => exact h k (Nat.lt_of_succ_lt_succ hk)
        rcases ih hrest (Nat.lt_of_succ_lt_succ hs) (Nat.lt_of_succ_lt hs') with ⟨i,
          hi, hl⟩ | ⟨hnone, hno⟩
        · refine .inl ⟨i + 1, ?_, hl.here, hnot i hl.first⟩
          rw [hi, Nat.add_assoc, Nat.add_comm 1 i]
        · exact .inr ⟨hnone, fun j => hnot j (fun k _ => hno k) j (Nat.lt_succ_self j)⟩

/-- **`strstr`** finds the leftmost occurrence, if there is one. -/
theorem strstr_spec (ha : IsStr m a s) (hb : IsStr m b t) (hs : s.length < 2 ^ 32) :
    (∃ i, strstr m a b = some (a + i) ∧ Leftmost s t i) ∨ strstr m a b = none ∧ ¬t <:+: s := by
  rw [strstr]
  cases t with
  | nil =>
    rw [if_pos (show m b = 0 from hb)]
    exact .inl ⟨0, rfl, List.nil_prefix, fun j hj => absurd hj (Nat.not_lt_zero j)⟩
  | cons y t =>
    rw [if_neg (show ¬m b = 0 from fun hz => hb.1 (hb.2.1.symm.trans hz))]
    refine (strstrUpTo_spec ha hb (List.cons_ne_nil y t) hs hs).imp_right
      fun ⟨hnone, hno⟩ => ⟨hnone, ?_⟩
    rintro ⟨u, v, rfl⟩
    refine hno u.length ?_
    rw [List.append_assoc, List.drop_left]
    exact List.prefix_append _ _

/-- `ababc` has `abc` in it, and not at its start. -/
theorem strstr_spec_twice :
    ∃ i, strstr (fun a => ([97, 98, 97, 98, 99, 0, 97, 98, 99] : List UInt8).getD a 0) 0 6 =
    some (0 + i) ∧ Leftmost [97, 98, 97, 98, 99] [97, 98, 99] i := by
  refine (strstr_spec ?_ ?_ ?_).resolve_right fun h => h.2 ⟨[97, 98], [], rfl⟩
  · exact ⟨by decide, rfl, by decide, rfl, by decide, rfl, by decide, rfl, by decide, rfl, rfl⟩
  · exact ⟨by decide, rfl, by decide, rfl, by decide, rfl, rfl⟩
  · decide

end CStr

end Aurisys
