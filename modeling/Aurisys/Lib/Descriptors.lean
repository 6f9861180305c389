import Mathlib.Algebra.GroupWithZero.Nat
import Mathlib.Data.List.FinRange
import Mathlib.Logic.Function.Basic

/-!
# A table of descriptors

A process names its open files by small numbers. What is opened gets the lowest number that is free,
and a number that is closed is free again. So what is opened over a table and closed again leaves
the table as it was, in whatever order it is closed.

## Main definitions

* `Table`, `Table.free`, `Table.install`, `Table.close`, `Table.dup2`, `Table.dup`, `Table.pipe`
* `Table.move` — `dup2` and `close`
* `Table.Over` — what is open over a table

## Main results

* `Table.Over.install`, `Table.Over.dup`, `Table.Over.pipe`, `Table.Over.close`
* `Table.Over.eq` — all of it is closed again
-/

namespace Aurisys

/-- What each descriptor is, if it is open. -/
abbrev Table (n : ℕ) (α : Type*) := Fin n → Option α

namespace Table

variable {n : ℕ} {α : Type*} {t t' : Table n α} {i j r w : Fin n} {o : Option (Fin n)}
  {l l' l'' : List (Fin n)}
  {x y : α}

/-- The descriptors that are not open, lowest first. -/
def free (t : Table n α) : List (Fin n) := (List.finRange n).filter fun i => (t i).isNone

/-- The lowest one. -/
def lowest (t : Table n α) : Option (Fin n) := t.free.head?

/-- A file is opened. -/
def install (t : Table n α) (x : α) : Option (Fin n) × Table n α :=
  t.lowest.elim (none, t) fun i => (some i, Function.update t i (some x))

def close (t : Table n α) (i : Fin n) : Table n α := Function.update t i none

/-- A descriptor is closed, if there is one. -/
def closeAt (t : Table n α) (o : Option (Fin n)) : Table n α := o.elim t t.close

/-- The second descriptor becomes what the first one is, open or not. -/
def dup2 (t : Table n α) (i j : Fin n) : Table n α := if i = j then t else Function.update t j (t i)

/-- The lowest free descriptor becomes what this one is. -/
def dup (t : Table n α) (i : Fin n) : Option (Fin n) × Table n α :=
  t.lowest.elim (none, t) fun j => (some j, t.dup2 i j)

/-- Two files are opened, if two descriptors are free. -/
def pipe (t : Table n α) (x y : α) : Option (Fin n × Fin n × Table n α) :=
  match t.free with
  | r :: w :: _ => some (r, w, Function.update (Function.update t r (some x)) w (some y))
  | _ => none

/-- A descriptor becomes another one, if there is one. -/
def move (t : Table n α) (o : Option (Fin n)) (j : Fin n) : Table n α :=
  o.elim t fun i => if i = j then t else (t.dup2 i j).close i

/-! ## Free descriptors -/

theorem mem_free : i ∈ t.free ↔ t i = none := by
  rw [free, List.mem_filter]
  simp

theorem pairwise_free (t : Table n α) : t.free.Pairwise (· < ·) :=
  (List.pairwise_lt_finRange n).filter _

theorem free_of_lowest (h : t.lowest = some i) : t i = none := mem_free.mp (List.mem_of_head? h)

theorem lowest_le (h : t.lowest = some i) (hj : t j = none) : i ≤ j := by
  have hmem := mem_free.mpr hj
  have hsorted := pairwise_free t
  rw [lowest] at h
  cases hf : t.free with
  | nil =>
    rw [hf] at hmem
    exact absurd hmem List.not_mem_nil
  | cons k l =>
    rw [hf] at h hmem hsorted
    obtain rfl := Option.some.inj h
    rcases List.mem_cons.mp hmem with rfl | hmem
    · exact le_rfl
    · exact ((List.pairwise_cons.mp hsorted).1 j hmem).le

theorem lowest_eq_none : t.lowest = none ↔ ∀ i, t i ≠ none := by
  rw [lowest, List.head?_eq_none_iff, List.eq_nil_iff_forall_not_mem]
  exact forall_congr' fun i => not_congr mem_free

theorem lowest_eq_zero [NeZero n] : t.lowest = some 0 ↔ t 0 = none := by
  refine ⟨free_of_lowest, fun h0 => ?_⟩
  cases hlow : t.lowest with
  | none => exact absurd h0 (lowest_eq_none.mp hlow 0)
  | some i =>
    have hi : i ≤ 0 := lowest_le hlow h0
    rw [nonpos_iff_eq_zero.mp hi]

/-- What a pipe takes. -/
theorem pipe_eq_some (h : t.pipe x y = some (r, w, t')) :
    t r = none ∧ t w = none ∧ r < w ∧ (∀ j, t j = none → r ≤ j) ∧
      t' = Function.update (Function.update t r (some x)) w (some y) := by
  have hlow : ∀ {i}, t.lowest = some i → ∀ j, t j = none → i ≤ j := fun hi _ hj => lowest_le hi hj
  have hsorted := pairwise_free t
  rw [pipe] at h
  rw [lowest] at hlow
  cases hf : t.free with
  | nil =>
    rw [hf] at h
    exact absurd h nofun
  | cons a l =>
    cases l with
    | nil =>
      rw [hf] at h
      exact absurd h nofun
    | cons b l =>
      rw [hf] at h hsorted
      simp only [Option.some.injEq, Prod.mk.injEq] at h
      obtain ⟨rfl, rfl, rfl⟩ := h
      have hmem : ∀ {i}, i ∈ a :: b :: l → t i = none := fun hi => mem_free.mp (hf ▸ hi)
      refine ⟨hmem List.mem_cons_self, hmem (List.mem_cons_of_mem _ List.mem_cons_self), ?_, ?_,
        rfl⟩
      · exact (List.pairwise_cons.mp hsorted).1 b List.mem_cons_self
      · exact hlow (by rw [hf]; rfl)

/-! ## What is open over a table -/

/-- Only these descriptors have changed, and they were free. -/
structure Over (t t' : Table n α) (l : List (Fin n)) : Prop where
  free : ∀ i ∈ l, t i = none
  same : ∀ i ∉ l, t' i = t i

theorem Over.refl (t : Table n α) : Over t t [] := ⟨nofun, fun _ _ => rfl⟩

/-- **All of it is closed again.** -/
theorem Over.eq (h : Over t t' []) : t' = t := funext fun i => h.same i List.not_mem_nil

theorem Over.perm (h : Over t t' l) (hl : l.Perm l') : Over t t' l' :=
  ⟨fun i hi => h.free i (hl.mem_iff.mpr hi), fun i hi => h.same i fun hm => hi (hl.mem_iff.mp hm)⟩

theorem Over.swap (h : Over t t' (l ++ (l' ++ l''))) : Over t t' (l' ++ (l ++ l'')) :=
  h.perm (List.perm_append_comm_assoc l l' l'')

/-- A free descriptor becomes anything. -/
theorem Over.put (h : Over t t' l) (hi : t' i = none) (z : Option α) :
    Over t (Function.update t' i z) (i :: l) where
  free j hj := by
    by_cases hl : j ∈ l
    · exact h.free j hl
    · obtain rfl := (List.mem_cons.mp hj).resolve_right hl
      rw [← h.same j hl, hi]
  same j hj := by
    rw [Function.update_of_ne (List.ne_of_not_mem_cons hj)]
    exact h.same j (List.not_mem_of_not_mem_cons hj)

theorem Over.install (h : Over t t' l) (x : α) :
    Over t (t'.install x).2 ((t'.install x).1.toList ++ l) := by
  rw [Table.install]
  cases hlow : t'.lowest with
  | none => exact h
  | some i => exact h.put (free_of_lowest hlow) (some x)

theorem Over.dup (h : Over t t' l) (i : Fin n) :
    Over t (t'.dup i).2 ((t'.dup i).1.toList ++ l) := by
  rw [Table.dup]
  cases hlow : t'.lowest with
  | none => exact h
  | some j =>
    have hput := h.put (free_of_lowest hlow)
    by_cases hij : i = j
    · have hsame : t'.dup2 i j = Function.update t' j (t' j) := by
        rw [dup2, if_pos hij, Function.update_eq_self]
      rw [Option.elim_some, hsame]
      exact hput _
    · rw [Option.elim_some, dup2, if_neg hij]
      exact hput _

theorem Over.pipe {t'' : Table n α} (h : Over t t' l) (hp : t'.pipe x y = some (r, w, t'')) :
    Over t t'' (w :: r :: l) := by
  obtain ⟨hr, hw, hlt, -, rfl⟩ := pipe_eq_some hp
  exact (h.put hr (some x)).put (by rw [Function.update_of_ne hlt.ne', hw]) (some y)

/-- **What is open is closed.** -/
theorem Over.close (h : Over t t' (o.toList ++ l)) : Over t (t'.closeAt o) l := by
  cases o with
  | none => exact h
  | some i =>
    refine ⟨fun j hj => h.free j (List.mem_cons_of_mem i hj), fun j hj => ?_⟩
    rw [closeAt, Option.elim_some, Table.close, Function.update_apply]
    split
    · next hji => rw [hji, h.free i List.mem_cons_self]
    · next hji => exact h.same j (List.not_mem_cons_of_ne_of_not_mem hji hj)

/-! ## Moving a descriptor -/

theorem move_none (t : Table n α) (j : Fin n) : t.move none j = t := rfl

theorem move_apply (t : Table n α) (i j k : Fin n) :
    t.move (some i) j k = if i = j then t k else if k = i then none else if k = j then t i
    else t k := by
  rw [move, Option.elim_some]
  split
  · rfl
  · next hij =>
    rw [Table.close, Function.update_apply, dup2, if_neg hij, Function.update_apply]

/-- It is there now, also if it has been there before. -/
theorem move_to (t : Table n α) (i j : Fin n) : t.move (some i) j j = t i := by
  rw [move_apply]
  by_cases hij : i = j
  · rw [if_pos hij, hij]
  · rw [if_neg hij, if_neg fun h => hij h.symm, if_pos rfl]

/-- The others are as they were. -/
theorem move_of_ne {k : Fin n} (hk : k ≠ j) (ho : o ≠ some k) : t.move o j k = t k := by
  cases o with
  | none => rfl
  | some i =>
    have hki : k ≠ i := fun h => ho (congrArg some h.symm)
    rw [move_apply, if_neg hki, if_neg hk, ite_self]

/-- And it is not where it was. -/
theorem of_move {k : Fin n} (hk : k ≠ j) (h : t.move o j k = some x) :
    t k = some x ∧ o ≠ some k := by
  have ho : o ≠ some k := by
    rintro rfl
    rw [move_apply, if_neg hk, if_pos rfl] at h
    exact absurd h nofun
  rw [move_of_ne hk ho] at h
  exact ⟨h, ho⟩

theorem closeAt_of_ne {k : Fin n} (ho : o ≠ some k) : t.closeAt o k = t k := by
  cases o with
  | none => rfl
  | some i => exact Function.update_of_ne (fun h => ho (congrArg some h.symm)) _ _

end Table

end Aurisys
