import Mathlib.Logic.Function.Basic
import Mathlib.Data.List.Basic

/-!
# Packed arrays

An array with a count: only the entries below the count are there. To take one out and keep the
order, all that stand behind it have to come forward. If the last one moves into the hole instead,
the order stays as it was only when all that stood behind the hole are alike.

## Main definitions

* `live f n` — the entries that are there

## Main results

* `find?_range_live` — the loop that looks for the first of some kind
* `live_fill` — an entry in the hole
* `fill_eq_eraseIdx_iff` — when the order has been kept
-/

namespace Aurisys

namespace Packed

variable {α : Type*} {f : ℕ → α} {i n : ℕ} {x : α}

/-- The entries that are there. -/
def live (f : ℕ → α) (n : ℕ) : List α := (List.range n).map f

@[simp] theorem live_zero (f : ℕ → α) : live f 0 = [] := rfl

theorem live_succ (f : ℕ → α) (n : ℕ) : live f (n + 1) = live f n ++ [f n] := by
  rw [live, List.range_succ, List.map_append]
  rfl

@[simp] theorem length_live (f : ℕ → α) (n : ℕ) : (live f n).length = n := by
  rw [live, List.length_map, List.length_range]

theorem getElem?_live (h : i < n) : (live f n)[i]? = some (f i) := by
  rw [live, List.getElem?_map, List.getElem?_range h]
  rfl

theorem getLast?_live (h : 0 < n) : (live f n).getLast? = some (f (n - 1)) := by
  rw [List.getLast?_eq_getElem?, length_live, getElem?_live (by omega)]

theorem live_congr {g : ℕ → α} (h : ∀ i < n, f i = g i) : live f n = live g n :=
  List.map_congr_left fun i hi => h i (List.mem_range.mp hi)

/-- An entry that is put behind the others. -/
theorem live_push (f : ℕ → α) (n : ℕ) (x : α) : live (Function.update f n x)
    (n + 1) = live f n ++ [x] := by
  rw [live_succ, Function.update_self]
  congr 1
  exact live_congr fun i hi => Function.update_of_ne (Nat.ne_of_lt hi) x f

theorem live_update (f : ℕ → α) (n i : ℕ) (x : α) :
    live (Function.update f i x) n = (live f n).set i x := by
  apply List.ext_getElem?
  intro j
  rw [List.getElem?_set, length_live]
  by_cases hj : j < n
  · rw [getElem?_live hj, getElem?_live hj, Function.update_apply]
    by_cases hij : i = j
    · rw [if_pos hij.symm, if_pos hij, if_pos (hij ▸ hj)]
    · rw [if_neg (Ne.symm hij), if_neg hij]
  · have hnone : ∀ g : ℕ → α, (live g n)[j]? = none := fun g =>
      List.getElem?_eq_none (by rw [length_live]; exact Nat.not_lt.mp hj)
    rw [hnone, hnone]
    split
    · next hij => rw [if_neg (hij ▸ hj)]
    · rfl

/-- **An entry in the hole**, and the last one gone. -/
theorem live_fill (f : ℕ → α) (n i : ℕ) (x : α) :
    live (Function.update f i x) (n - 1) = ((live f n).set i x).dropLast := by
  rw [← live_update]
  cases n with
  | zero => rfl
  | succ n => rw [live_succ, List.dropLast_concat, Nat.add_sub_cancel]

/-- The loop that looks for the first entry of some kind. -/
theorem find?_range_live (p : α → Bool) (f : ℕ → α) (n : ℕ) :
    (List.range n).find? (fun i => p (f i)) = (live f n).findIdx? p := by
  induction n with
  | zero => rfl
  | succ n ih =>
    rw [List.range_succ, List.find?_append, ih, live_succ, List.findIdx?_append, length_live]
    cases hp : p (f n) <;> simp [List.find?, List.findIdx?_cons, hp]

theorem dropLast_cons_eq_iff (x : α) (l : List α) : (x :: l).dropLast = l ↔ ∀ y ∈ l, y = x := by
  induction l generalizing x with
  | nil => simp
  | cons y l ih =>
    rw [List.dropLast_cons_cons, List.cons.injEq, ih]
    constructor
    · rintro ⟨rfl, h⟩ z hz
      exact (List.mem_cons.mp hz).elim id (h z)
    · intro h
      obtain rfl := h y List.mem_cons_self
      exact ⟨rfl, fun z hz => h z (List.mem_cons_of_mem y hz)⟩

/-- **The order is kept just when all that stood behind the hole are what is put into it.** -/
theorem fill_eq_eraseIdx_iff {l : List α} (hi : i < l.length) :
    (l.set i x).dropLast = l.eraseIdx i ↔ ∀ y ∈ l.drop (i + 1), y = x := by
  induction l generalizing i with
  | nil => exact absurd hi (Nat.not_lt_zero i)
  | cons a l ih =>
    cases i with
    | zero => exact dropLast_cons_eq_iff x l
    | succ i =>
      have hi : i < l.length := Nat.lt_of_succ_lt_succ hi
      have hne : l.set i x ≠ [] := by
        intro h
        rw [List.set_eq_nil_iff] at h
        rw [h] at hi
        exact absurd hi (Nat.not_lt_zero i)
      rw [List.set_cons_succ, List.dropLast_cons_of_ne_nil hne, List.eraseIdx_cons_succ,
        List.cons.injEq, ih hi,
        List.drop_succ_cons]
      exact and_iff_right rfl

end Packed

end Aurisys
