import Mathlib.Data.List.Basic
import Mathlib.Data.Nat.Basic

/-!
# Records behind one another

Records of different lengths fill a stretch of memory. Each says how long it is, and the next one
begins where it ends. So from the first position, a function that gives the next one leads through
all of them, and the stretch is in order if it leads to its end.

The list of positions is determined by that function, and it can be taken apart and put together at
any of them. A change of the function at one position makes that record longer or shorter, and the
list stays in order if what is left out, or put in, is a stretch in order itself.

## Main definitions

* `Hops`

## Main results

* `Hops.append`, `Hops.split`
* `Hops.congr`, `Hops.unique`
-/

namespace Aurisys

/-- From `a` on the positions in `l` follow one another, and the last one leads to `b`. -/
inductive Hops (next : ℕ → ℕ) : ℕ → ℕ → List ℕ → Prop
  | nil (a : ℕ) : Hops next a a []
  | cons {a b : ℕ} {l : List ℕ} (hlt : a < next a) (h : Hops next (next a) b l) :
  Hops next a b (a :: l)

namespace Hops

variable {next next' : ℕ → ℕ} {a b c x : ℕ} {l l' : List ℕ}

theorem le (h : Hops next a b l) : a ≤ b := by
  induction h with
  | nil a => exact le_rfl
  | cons hlt _ ih => exact Nat.le_trans (Nat.le_of_lt hlt) ih

/-- A record is inside the stretch. -/
theorem mem (h : Hops next a b l) (hx : x ∈ l) : a ≤ x ∧ x < next x ∧ next x ≤ b := by
  induction h with
  | nil a => exact absurd hx List.not_mem_nil
  | cons hlt h ih =>
    rcases List.mem_cons.mp hx with rfl | hx
    · exact ⟨le_rfl, hlt, h.le⟩
    · have := ih hx
      exact ⟨Nat.le_trans (Nat.le_of_lt hlt) this.1, this.2⟩

theorem nil_iff : Hops next a b [] ↔ a = b :=
  ⟨fun h => by cases h; rfl, fun h => h ▸ .nil a⟩

theorem cons_iff : Hops next a b (x :: l) ↔ a = x ∧ a < next a ∧ Hops next (next a) b l := by
  constructor
  · intro h
    cases h with
    | cons hlt h => exact ⟨rfl, hlt, h⟩
  · rintro ⟨rfl, hlt, h⟩
    exact .cons hlt h

/-- Whether a list is in order is found out by going through it. -/
instance decidable (next : ℕ → ℕ) (b : ℕ) : ∀ a l, Decidable (Hops next a b l)
  | _, [] => decidable_of_iff _ nil_iff.symm
  | a, _ :: l =>
    have := decidable next b (next a) l
    decidable_of_iff _ cons_iff.symm

theorem append (h : Hops next a b l) (h' : Hops next b c l') : Hops next a c (l ++ l') := by
  induction h with
  | nil a => exact h'
  | cons hlt _ ih => exact .cons hlt (ih h')

theorem single (hlt : a < next a) : Hops next a (next a) [a] := .cons hlt (.nil _)

/-- **At any record** the stretch can be taken apart. -/
theorem split (h : Hops next a c (l ++ x :: l')) :
    Hops next a x l ∧ x < next x ∧ Hops next (next x) c l' := by
  induction l generalizing a with
  | nil =>
    cases h with
    | cons hlt h => exact ⟨.nil _, hlt, h⟩
  | cons y l ih =>
    cases h with
    | cons hlt h =>
      obtain ⟨h₁, h₂⟩ := ih h
      exact ⟨.cons hlt h₁, h₂⟩

/-- The function matters at the records only. -/
theorem congr (h : Hops next a b l) (heq : ∀ x ∈ l, next' x = next x) : Hops next' a b l := by
  induction h with
  | nil a => exact .nil a
  | cons hlt h ih =>
    have ha := heq _ (List.mem_cons_self ..)
    refine .cons (ha.symm ▸ hlt) ?_
    rw [ha]
    exact ih fun x hx => heq x (List.mem_cons_of_mem _ hx)

/-- **There is one way** through a stretch. -/
theorem unique (h : Hops next a b l) (h' : Hops next a b l') : l = l' := by
  induction h generalizing l' with
  | nil a =>
    cases h' with
    | nil => rfl
    | cons hlt h' => exact absurd (Nat.lt_of_lt_of_le hlt h'.le) (Nat.lt_irrefl a)
  | cons hlt h ih =>
    cases h' with
    | nil => exact absurd (Nat.lt_of_lt_of_le hlt h.le) (Nat.lt_irrefl _)
    | cons _ h' => rw [ih h']

/-- A record in front ends where a later one begins, or before. -/
theorem next_le_of_split (h : Hops next a c (l ++ x :: l')) {y : ℕ} (hy : y ∈ l) : next y ≤ x :=
  (h.split.1.mem hy).2.2

end Hops

end Aurisys
