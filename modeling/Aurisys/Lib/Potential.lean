import Mathlib.Order.Interval.Finset.Nat

/-!
# Counting with a potential

A number that no step of a run raises, and that certain steps lower, bounds how many of these steps
there are.

## Main results

* `Potential.card_add_le` — the steps that lower it, and what is left of it
* `Potential.antitone_of_step` — it is never raised again
-/

namespace Aurisys

namespace Potential

variable {f : ℕ → ℕ} {P : ℕ → Prop} {s n a b : ℕ}

/-- It is nowhere raised. -/
theorem antitone_of_step (h : ∀ t, s ≤ t → t < n → f (t + 1) ≤ f t) (ha : s ≤ a) (hab : a ≤ b)
    (hb : b ≤ n) : f b ≤ f a := by
  induction b, hab using Nat.le_induction with
  | base => exact le_rfl
  | succ b hab ih => exact (h b (ha.trans hab) hb).trans (ih (by omega))

/-- **How often it can fall.** -/
theorem card_add_le [DecidablePred P] (hs : s ≤ n) (hle : ∀ t, s ≤ t → t < n → f (t + 1) ≤ f t)
    (hlt : ∀ t, s ≤ t → t < n → P t → f (t + 1) < f t) :
    ((Finset.Ico s n).filter P).card + f n ≤ f s := by
  induction n, hs using Nat.le_induction with
  | base => simp
  | succ n hs ih =>
    have ih' := ih (fun t h h' => hle t h (by omega)) fun t h h' => hlt t h (by omega)
    have hmem : n ∉ (Finset.Ico s n).filter P := by simp
    rw [Nat.Ico_succ_right_eq_insert_Ico hs, Finset.filter_insert]
    split
    · next hp =>
      have := hlt n hs n.lt_succ_self hp
      rw [Finset.card_insert_of_notMem hmem]
      omega
    · have := hle n hs n.lt_succ_self
      omega

end Potential

end Aurisys
