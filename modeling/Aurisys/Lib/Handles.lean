import Mathlib.Algebra.BigOperators.Fin
import Mathlib.Algebra.Order.BigOperators.Group.Finset

/-!
# Tables of handles

Some things are counted by those who hold them: every holder has a table, and a slot of a table may
hold a handle. This is how many handles of a kind there are in all tables, and how that changes when
one slot or one table does.

## Main definitions

* `Handles.count` — the number of handles of a kind

## Main results

* `Handles.count_row`, `Handles.count_slot`, `Handles.count_pos`
-/

namespace Aurisys

namespace Handles

variable {ι κ α β : Type*} [Fintype ι] [Fintype κ] (P : α → Bool)

/-- One slot. -/
def one (o : Option α) : ℕ := if o.any P then 1 else 0

/-- One table. -/
def inRow (row : κ → Option α) : ℕ := ∑ j, one P (row j)

/-- All tables. -/
def count (t : ι → κ → Option α) : ℕ := ∑ i, inRow P (t i)

theorem one_none : one P none = 0 := rfl

theorem inRow_none : inRow P (fun _ : κ => none) = 0 := Finset.sum_eq_zero fun _ _ => rfl

/-- Where one term of a sum changes. -/
theorem sum_update [DecidableEq ι] (g : β → ℕ) (f : ι → β) (i : ι) (b : β) :
    ∑ x, g (Function.update f i b x) + g (f i) = ∑ x, g (f x) + g b := by
  have hrest : ∑ x ∈ {i}ᶜ, g (Function.update f i b x) = ∑ x ∈ {i}ᶜ, g (f x) := by
    refine Finset.sum_congr rfl fun x hx => ?_
    rw [Function.update_of_ne (by simpa using hx)]
  rw [Fintype.sum_eq_add_sum_compl i, Fintype.sum_eq_add_sum_compl i (fun x => g (f x)), hrest,
    Function.update_self]
  omega

theorem inRow_update [DecidableEq κ] (row : κ → Option α) (j : κ) (o : Option α) :
    inRow P (Function.update row j o) + one P (row j) = inRow P row + one P o :=
  sum_update (one P) row j o

/-- **One table changes.** -/
theorem count_row [DecidableEq ι] (t : ι → κ → Option α) (i : ι) (row : κ → Option α) :
    count P (Function.update t i row) + inRow P (t i) = count P t + inRow P row :=
  sum_update (inRow P) t i row

/-- **One slot changes.** -/
theorem count_slot [DecidableEq ι] [DecidableEq κ] (t : ι → κ → Option α) (i : ι) (j : κ)
    (o : Option α) :
    count P (Function.update t i (Function.update (t i) j o)) + one P (t i j)
      = count P t + one P o := by
  have h := count_row P t i (Function.update (t i) j o)
  have h' := inRow_update P (t i) j o
  omega

theorem inRow_le_count (t : ι → κ → Option α) (i : ι) : inRow P (t i) ≤ count P t :=
  Finset.single_le_sum (f := fun i => inRow P (t i)) (fun _ _ => Nat.zero_le _) (Finset.mem_univ i)

/-- **Somebody has one.** -/
theorem count_pos {t : ι → κ → Option α} :
    0 < count P t ↔ ∃ i j f, t i j = some f ∧ P f = true := by
  constructor
  · intro h
    obtain ⟨i, -, hi⟩ := Finset.exists_ne_zero_of_sum_ne_zero h.ne'
    obtain ⟨j, -, hj⟩ := Finset.exists_ne_zero_of_sum_ne_zero hi
    have hany : (t i j).any P = true := by
      by_contra hn
      exact hj (if_neg hn)
    cases hf : t i j with
    | none =>
      rw [hf] at hany
      cases hany
    | some f =>
      rw [hf] at hany
      exact ⟨i, j, f, hf, hany⟩
  · rintro ⟨i, j, f, hf, hP⟩
    have hone : one P (t i j) = 1 := by
      rw [hf]
      exact if_pos hP
    have hrow : one P (t i j) ≤ inRow P (t i) :=
      Finset.single_le_sum (f := fun j => one P (t i j)) (fun _ _ => Nat.zero_le _)
        (Finset.mem_univ j)
    have hall : inRow P (t i) ≤ count P t :=
      Finset.single_le_sum (f := fun i => inRow P (t i)) (fun _ _ => Nat.zero_le _)
        (Finset.mem_univ i)
    omega

end Handles

end Aurisys
