import Mathlib.Data.List.Range
import Mathlib.Data.Nat.ModEq
import Mathlib.Logic.Function.Basic

/-!
# Circular buffers

A buffer of a fixed capacity with two positions and a separate count: elements are put where `head`
is and taken where `tail` is, and both go round. What is in it is a queue.

## Main definitions

* `Ring` — the buffer
* `Ring.contents` — the queue
* `Ring.WF` — the positions and the count agree

## Main results

* `Ring.contents_put`, `Ring.contents_take`, `Ring.contents_unput`, `Ring.takeUpTo_spec`
* `Ring.contents_store`, `Ring.contents_stored` — the two stores of `put`
* `Ring.ofPositions_put`, `Ring.ofPositions_take` — a buffer that does without the count
-/

namespace Aurisys

structure Ring (α : Type*) where
  buf : ℕ → α
  /-- Where the next one goes. -/
  head : ℕ
  /-- Where the next one comes from. -/
  tail : ℕ
  /-- How many there are. -/
  n : ℕ

namespace Ring

variable {α : Type*} (cap : ℕ)

/-- Nothing in it. -/
def empty (x : α) : Ring α := ⟨fun _ => x, 0, 0, 0⟩

def put (r : Ring α) (x : α) : Ring α where
  buf := Function.update r.buf r.head x
  head := (r.head + 1) % cap
  tail := r.tail
  n := r.n + 1

def take (r : Ring α) : α × Ring α :=
  (r.buf r.tail, { r with tail := (r.tail + 1) % cap, n := r.n - 1 })

/-- As many as there are, up to a number. -/
def takeUpTo : ℕ → Ring α → List α × Ring α
  | 0, r => ([], r)
  | len + 1, r =>
    if r.n = 0 then ([], r)
    else
      let (x, r) := take cap r
      let (l, r) := takeUpTo len r
      (x :: l, r)

/-- The newest is taken back. -/
def unput (r : Ring α) : Ring α :=
  { r with head := (r.head + cap - 1) % cap, n := r.n - 1 }

/-- The elements, oldest first. -/
def contents (r : Ring α) : List α := (List.range r.n).map fun i => r.buf ((r.tail + i) % cap)

/-- The positions are in the buffer, and `head` is `n` after `tail`. -/
structure WF (r : Ring α) : Prop where
  tail_lt : r.tail < cap
  n_le : r.n ≤ cap
  head_eq : r.head = (r.tail + r.n) % cap

variable {cap} {r : Ring α}

theorem WF.head_lt (h : r.WF cap) : r.head < cap := by
  rw [h.head_eq]
  exact Nat.mod_lt _ (Nat.zero_lt_of_lt h.tail_lt)

theorem WF.empty (hc : 0 < cap) (x : α) : (Ring.empty x).WF cap :=
  ⟨hc, Nat.zero_le cap, (Nat.zero_mod cap).symm⟩

theorem length_contents (r : Ring α) : (r.contents cap).length = r.n := by
  rw [contents, List.length_map, List.length_range]

theorem WF.put (h : r.WF cap) (hn : r.n < cap) (x : α) : (r.put cap x).WF cap := by
  refine ⟨h.tail_lt, hn, ?_⟩
  change (r.head + 1) % cap = (r.tail + (r.n + 1)) % cap
  rw [h.head_eq, Nat.mod_add_mod, Nat.add_assoc]

/-- No position that is in use is the one that is written next. -/
theorem WF.slot_ne_head (h : r.WF cap) (hn : r.n < cap) {i : ℕ} (hi : i < r.n) :
    (r.tail + i) % cap ≠ r.head := by
  intro he
  rw [h.head_eq] at he
  have hmod : i % cap = r.n % cap := Nat.ModEq.add_left_cancel' r.tail he
  rw [Nat.mod_eq_of_lt (hi.trans hn), Nat.mod_eq_of_lt hn] at hmod
  omega

/-- A store where the next one goes is not seen. -/
theorem contents_store (h : r.WF cap) (hn : r.n < cap) (x : α) :
    { r with buf := Function.update r.buf r.head x }.contents cap = r.contents cap :=
  List.map_congr_left fun _ hi =>
    Function.update_of_ne (h.slot_ne_head hn (List.mem_range.mp hi)) _ _

/-- **One more** at the end, when `head` passes it. -/
theorem contents_stored (h : r.WF cap) :
    { r with head := (r.head + 1) % cap, n := r.n + 1 }.contents cap =
      r.contents cap ++ [r.buf r.head] := by
  change (List.range (r.n + 1)).map _ = _
  rw [List.range_succ, List.map_append, List.map_singleton, ← h.head_eq]
  rfl

theorem contents_put (h : r.WF cap) (hn : r.n < cap) (x : α) :
    (r.put cap x).contents cap = r.contents cap ++ [x] := by
  have hstored : (r.put cap x).contents cap =
      { r with buf := Function.update r.buf r.head x }.contents cap ++
        [Function.update r.buf r.head x r.head] :=
    contents_stored (r := { r with buf := Function.update r.buf r.head x })
      ⟨h.tail_lt, h.n_le, h.head_eq⟩
  rw [hstored, contents_store h hn, Function.update_self]

theorem WF.take (h : r.WF cap) (hn : r.n ≠ 0) : (Ring.take cap r).2.WF cap := by
  refine ⟨Nat.mod_lt _ (Nat.zero_lt_of_lt h.tail_lt), (Nat.sub_le _ _).trans h.n_le, ?_⟩
  change r.head = ((r.tail + 1) % cap + (r.n - 1)) % cap
  rw [h.head_eq, Nat.mod_add_mod]
  congr 1
  omega

/-- **One less** at the front. -/
theorem contents_take (h : r.WF cap) (hn : r.n ≠ 0) :
    r.contents cap = (Ring.take cap r).1 :: (Ring.take cap r).2.contents cap := by
  obtain ⟨m, hm⟩ := Nat.exists_eq_succ_of_ne_zero hn
  have hrest : (Ring.take cap r).2.contents cap
      = (List.range m).map fun i => r.buf (((r.tail + 1) % cap + i) % cap) := by
    change (List.range (r.n - 1)).map _ = _
    rw [hm, Nat.succ_sub_one]
    rfl
  rw [hrest, contents, hm, List.range_succ_eq_map, List.map_cons, List.map_map, Nat.add_zero,
    Nat.mod_eq_of_lt h.tail_lt]
  refine congrArg (r.buf r.tail :: ·) (List.map_congr_left fun i _ => ?_)
  change r.buf ((r.tail + (i + 1)) % cap) = _
  rw [Nat.mod_add_mod, Nat.add_right_comm, Nat.add_assoc]

/-- **One less** at the end. -/
theorem contents_unput (r : Ring α) :
    (Ring.unput cap r).contents cap = (r.contents cap).dropLast := by
  change (List.range (r.n - 1)).map _ = _
  rw [contents, ← List.map_dropLast]
  congr 1
  cases r.n with
  | zero => rfl
  | succ n => rw [List.range_succ, List.dropLast_concat, Nat.add_sub_cancel]

/-- **A read.** -/
theorem takeUpTo_spec (h : r.WF cap) (len : ℕ) :
    (takeUpTo cap len r).2.WF cap ∧
      r.contents cap = (takeUpTo cap len r).1 ++ (takeUpTo cap len r).2.contents cap ∧
      (takeUpTo cap len r).1.length = min len r.n := by
  induction len generalizing r with
  | zero => exact ⟨h, rfl, (Nat.zero_min _).symm⟩
  | succ len ih =>
    rw [takeUpTo]
    split
    · next hn =>
      rw [hn]
      exact ⟨h, rfl, (Nat.min_zero _).symm⟩
    · next hn =>
      obtain ⟨h₁, h₂, h₃⟩ := ih (h.take hn)
      refine ⟨h₁, ?_, ?_⟩
      · rw [contents_take h hn, h₂]
        rfl
      · have hlen : (Ring.take cap r).2.n = r.n - 1 := rfl
        rw [hlen] at h₃
        dsimp only [List.length_cons]
        omega

/-! ## Two positions and no count -/

/-- The buffer that two positions describe. One place stays empty, so that they are the same only if
nothing is in it. -/
def ofPositions (cap : ℕ) (buf : ℕ → α) (head tail : ℕ) : Ring α :=
  ⟨buf, head, tail, (head + cap - tail) % cap⟩

variable {buf : ℕ → α} {head tail : ℕ}

theorem mod_of_lt_two_mul {a : ℕ} (h : a < 2 * cap) : a % cap = if a < cap then a else a - cap := by
  split
  · next hlt => exact Nat.mod_eq_of_lt hlt
  · next hge => rw [Nat.mod_eq_sub_mod (not_lt.mp hge), Nat.mod_eq_of_lt (by omega)]

theorem ofPositions_n (hh : head < cap) (ht : tail < cap) :
    (ofPositions cap buf head tail).n = if tail ≤ head then head - tail else head + cap - tail := by
  change (head + cap - tail) % cap = _
  rw [mod_of_lt_two_mul (by omega)]
  split_ifs <;> omega

theorem ofPositions_n_lt (hh : head < cap) (ht : tail < cap) :
    (ofPositions cap buf head tail).n < cap := by
  rw [ofPositions_n hh ht]
  split_ifs <;> omega

theorem ofPositions_n_eq_zero_iff (hh : head < cap) (ht : tail < cap) :
    (ofPositions cap buf head tail).n = 0 ↔ head = tail := by
  rw [ofPositions_n hh ht]
  split_ifs <;> omega

theorem wf_ofPositions (hh : head < cap) (ht : tail < cap) :
    (ofPositions cap buf head tail).WF cap := by
  refine ⟨ht, (ofPositions_n_lt hh ht).le, ?_⟩
  change head = (tail + (ofPositions cap buf head tail).n) % cap
  rw [ofPositions_n hh ht]
  split
  · rw [mod_of_lt_two_mul (by omega)]
    split_ifs <;> omega
  · rw [mod_of_lt_two_mul (by omega)]
    split_ifs <;> omega

theorem ofPositions_stored (hh : head < cap) (ht : tail < cap) (hroom : (head + 1) % cap ≠ tail) :
    ofPositions cap buf ((head + 1) % cap) tail =
      { ofPositions cap buf head tail with
        head := (head + 1) % cap, n := (ofPositions cap buf head tail).n + 1 } := by
  refine congrArg (Ring.mk _ _ _) ?_
  change (ofPositions cap buf ((head + 1) % cap) tail).n = (ofPositions cap buf head tail).n + 1
  have hnext := @mod_of_lt_two_mul cap (head + 1) (by omega)
  have hlt : (head + 1) % cap < cap := Nat.mod_lt _ (by omega)
  rw [ofPositions_n hlt ht, ofPositions_n hh ht]
  rw [hnext] at hroom ⊢
  split_ifs at hroom ⊢ <;> omega

theorem ofPositions_put (hh : head < cap) (ht : tail < cap)
    (hroom : (head + 1) % cap ≠ tail) (x : α) :
    ofPositions cap (Function.update buf head x) ((head + 1) % cap) tail =
      (ofPositions cap buf head tail).put cap x := ofPositions_stored hh ht hroom

theorem ofPositions_unput (hh : head < cap) (ht : tail < cap) (hne : head ≠ tail) :
    ofPositions cap buf ((head + cap - 1) % cap) tail =
      (ofPositions cap buf head tail).unput cap := by
  refine congrArg (Ring.mk _ _ _) ?_
  change (ofPositions cap buf ((head + cap - 1) % cap) tail).n =
    (ofPositions cap buf head tail).n - 1
  have hprev := @mod_of_lt_two_mul cap (head + cap - 1) (by omega)
  have hlt : (head + cap - 1) % cap < cap := Nat.mod_lt _ (by omega)
  rw [ofPositions_n hlt ht, ofPositions_n hh ht, hprev]
  split_ifs <;> omega

theorem ofPositions_take (hh : head < cap) (ht : tail < cap) (hne : head ≠ tail) :
    ofPositions cap buf head ((tail + 1) % cap) = ((ofPositions cap buf head tail).take cap).2 := by
  refine congrArg (Ring.mk _ _ _) ?_
  change (ofPositions cap buf head ((tail + 1) % cap)).n = (ofPositions cap buf head tail).n - 1
  have hnext := @mod_of_lt_two_mul cap (tail + 1) (by omega)
  have hlt : (tail + 1) % cap < cap := Nat.mod_lt _ (by omega)
  rw [ofPositions_n hh hlt, ofPositions_n hh ht, hnext]
  split_ifs <;> omega

end Ring

end Aurisys
