import Aurisys.Lib.Buffers
import Mathlib.Algebra.GroupWithZero.Nat
import Mathlib.Data.List.Nodup
import Mathlib.Order.Nat

/-!
# Vectors

A `Vec` has a pointer to its buffer, a length and a capacity. Six special members, a growth routine
and `copy_from` hand buffers about.

`copy_from` does nothing when there is nothing to copy, and it does not give back the buffer that
was there before. So an assignment from an empty vector leaves the old contents where they are, and
an assignment over a vector that has a buffer loses the buffer. And the bytes that are asked for are
counted modulo `2 ^ 32`: a `reserve` can come out with a buffer that is much smaller than the
capacity.

The buffers are those of a `Memory`, in which `malloc` always finds room. The elements are values
that can be assigned cell by cell, as `int` can.

## Main definitions

* `Vec` and `VecState.step` — the code, on any number of vectors
* `Lists.step` — the same program on lists
* `Vec.Refines` — what is in the vectors is what is in the lists, and no buffer is lost
* `Vec.Spared` — a step that does not get into these

## Main results

* `Vec.growTo_spec`, `Vec.copyFrom_spec`, `Vec.push_spec`
* `Vec.Inv.step`, `Vec.value_semantics` — a step, and a run
* `Vec.good_assign_iff` — an assignment is right just when it is spared
-/

namespace Aurisys

open Function

/-! ## The code -/

/-- `Vec`. -/
structure Vec where
  data : Option ℕ
  len : ℕ
  cap : ℕ

namespace Vec

variable {α : Type*} (size : ℕ)

/-- A vector with nothing in it. -/
def null : Vec := ⟨none, 0, 0⟩

/-- `malloc(n * sizeof(T))`: so many elements have room in what comes back. -/
def elements (n : ℕ) : ℕ := n * size % 2 ^ 32 / size

/-- `grow_to`. -/
def growTo (m : Memory α) (v : Vec) (want : ℕ) : Option (Memory α × Vec) :=
  let n := if v.cap ≠ 0 then v.cap * 2 % 2 ^ 32 else 4
  let n := if n < want then want else n
  let fresh := m.malloc (elements size n)
  (fresh.2.copy (some fresh.1) v.data v.len).bind fun m => (m.free v.data).map fun m => (m,
    ⟨some fresh.1, v.len, n⟩)

/-- `grow_if_needed`. -/
def growIfNeeded (m : Memory α) (v : Vec) (more : ℕ) : Option (Memory α × Vec) :=
  if v.cap < (v.len + more) % 2 ^ 32 then growTo size m v ((v.len + more) % 2 ^ 32) else some (m, v)

/-- `push`. -/
def push (m : Memory α) (v : Vec) (a : α) : Option (Memory α × Vec) :=
  (growIfNeeded size m v 1).bind fun r =>
    (r.1.write r.2.data r.2.len a).map fun m => (m, { r.2 with len := (r.2.len + 1) % 2 ^ 32 })

/-- `pop`. -/
def pop (v : Vec) : Vec := if v.len ≠ 0 then { v with len := v.len - 1 } else v

/-- `clear`. -/
def clear (v : Vec) : Vec := { v with len := 0 }

/-- `reserve`. -/
def reserve (m : Memory α) (v : Vec) (n : UInt32) : Option (Memory α × Vec) :=
  if v.cap < n.toNat then growTo size m v n.toNat else some (m, v)

/-- `truncate`. -/
def truncate (v : Vec) (n : UInt32) : Vec :=
  { v with len := if n.toNat < v.len then n.toNat else v.len }

/-- `reset`. -/
def reset (m : Memory α) (v : Vec) : Option (Memory α × Vec) :=
  (m.free v.data).map fun m => (m, null)

/-- `copy_from`: the old buffer is forgotten. -/
def copyFrom (m : Memory α) (v o : Vec) : Option (Memory α × Vec) :=
  if o.len = 0 then some (m, v)
  else
    let fresh := m.malloc (elements size o.len)
    (fresh.2.copy (some fresh.1) o.data o.len).map fun m => (m, ⟨some fresh.1, o.len, o.len⟩)

/-- What is in it. -/
def contents (m : Memory α) (v : Vec) : List (Option α) :=
  (List.range v.len).map fun k => m.read v.data k

end Vec

/-- What a program does with its vectors. -/
inductive VecOp (α : Type*)
  /-- `Vec()` -/
  | new (i : ℕ)
  /-- `Vec(const Vec&)` -/
  | copy (i j : ℕ)
  /-- `Vec(Vec&&)` -/
  | take (i j : ℕ)
  /-- `operator=(const Vec&)` -/
  | assign (i j : ℕ)
  /-- `operator=(Vec&&)` -/
  | moveAssign (i j : ℕ)
  | push (i : ℕ) (a : α)
  | pop (i : ℕ)
  | clear (i : ℕ)
  | reserve (i : ℕ) (n : UInt32)
  | truncate (i : ℕ) (n : UInt32)
  /-- `~Vec()` -/
  | destroy (i : ℕ)

/-- The buffers, and the vectors that there are. -/
structure VecState (α : Type*) where
  mem : Memory α
  objs : ℕ → Option Vec

namespace VecState

variable {α : Type*} (size : ℕ)

/-- There is nothing. -/
def start : VecState α := ⟨.empty, fun _ => none⟩

def modify (s : VecState α) (i : ℕ) (f : Memory α → Vec → Option (Memory α × Vec)) :
    Option (VecState α) :=
  (s.objs i).bind fun v => (f s.mem v).map fun r => ⟨r.1, update s.objs i (some r.2)⟩

/-- One step. A program names vectors that are there, and makes new ones where there are none. -/
def step (s : VecState α) : VecOp α → Option (VecState α)
  | .new i =>
    if (s.objs i).isSome then none else some { s with objs := update s.objs i (some .null) }
  | .copy i j =>
    if (s.objs i).isSome then none
    else
      (s.objs j).bind fun o =>
        (Vec.copyFrom size s.mem .null o).map fun r => ⟨r.1, update s.objs i (some r.2)⟩
  | .take i j =>
    if (s.objs i).isSome then none
    else (s.objs j).map fun o => { s with objs := update (update s.objs j (some .null)) i (some o) }
  | .assign i j =>
    (s.objs j).bind fun o => s.modify i fun m v => if i = j then some (m, v)
      else Vec.copyFrom size m v o
  | .moveAssign i j =>
    (s.objs j).bind fun o =>
      if i = j then some s
      else
        (s.objs i).bind fun v =>
          (Vec.reset s.mem v).map fun r => ⟨r.1, update (update s.objs j (some .null)) i (some o)⟩
  | .push i a => s.modify i fun m v => Vec.push size m v a
  | .pop i => s.modify i fun m v => some (m, v.pop)
  | .clear i => s.modify i fun m v => some (m, v.clear)
  | .reserve i n => s.modify i fun m v => Vec.reserve size m v n
  | .truncate i n => s.modify i fun m v => some (m, v.truncate n)
  | .destroy i =>
    (s.objs i).bind fun v => (Vec.reset s.mem v).map fun r => ⟨r.1, update s.objs i none⟩

/-- Who has what. -/
def own (s : VecState α) (i : ℕ) : Option ℕ := (s.objs i).bind Vec.data

end VecState

/-! ## What it is for -/

/-- The same vectors as lists. -/
abbrev Lists (α : Type*) := ℕ → Option (List α)

namespace Lists

variable {α : Type*}

def modify (l : Lists α) (i : ℕ) (f : List α → List α) : Option (Lists α) :=
  (l i).map fun xs => update l i (some (f xs))

/-- The step of a program on lists. -/
def step (l : Lists α) : VecOp α → Option (Lists α)
  | .new i => if (l i).isSome then none else some (update l i (some []))
  | .copy i j => if (l i).isSome then none else (l j).map fun ys => update l i (some ys)
  | .take i j =>
    if (l i).isSome then none else (l j).map fun ys => update (update l j (some [])) i (some ys)
  | .assign i j => (l j).bind fun ys => l.modify i fun _ => ys
  | .moveAssign i j =>
    (l j).bind fun ys =>
      if i = j then some l else (l i).map fun _ => update (update l j (some [])) i (some ys)
  | .push i a => l.modify i fun xs => xs ++ [a]
  | .pop i => l.modify i List.dropLast
  | .clear i => l.modify i fun _ => []
  | .reserve i _ => l.modify i id
  | .truncate i n => l.modify i fun xs => xs.take n.toNat
  | .destroy i => (l i).map fun _ => update l i none

end Lists

namespace Vec

variable {α : Type*} (size : ℕ)

/-- **What is in the vectors is what is in the lists**, and each buffer that was given out has been
given back once, or a vector has it. -/
structure Good (s : VecState α) (l : Lists α) : Prop where
  /-- A vector reads as its list. -/
  contents : ∀ i, (s.objs i).map (contents s.mem) = (l i).map (List.map some)
  /-- No buffer is given back twice. -/
  once : s.mem.frees.Nodup
  /-- A buffer that was not given back has an owner. -/
  kept : ∀ b < s.mem.next, b ∈ s.mem.frees ∨ ∃ i, s.own i = some b

/-- When no vector is left, **each buffer has been given back once**. -/
theorem Good.count_frees {s : VecState α} {l : Lists α} (h : Good s l)
    (hdead : ∀ i, s.objs i = none) {b : ℕ}
    (hb : b < s.mem.next) : s.mem.frees.count b = 1 := by
  refine List.count_eq_one_of_mem h.once ((h.kept b hb).resolve_right ?_)
  rintro ⟨i, hi⟩
  rw [VecState.own, hdead] at hi
  exact absurd hi (by simp)

/-- A program on the vectors does what it does on the lists, in every state. -/
def Refines : VecState α → Lists α → List (VecOp α) → Prop
  | s, l, [] => Good s l
  | s, l, op :: ops =>
    Good s l ∧ ∀ l', l.step op = some l' → ∃ s', s.step size op = some s' ∧ Refines s' l' ops

/-- The capacity that a vector grows to. -/
def grown (cap want : ℕ) : ℕ := max (if cap = 0 then 4 else cap * 2) want

/-- **What is asked for is what comes back**, and nothing is assigned over a vector that has
something to lose. -/
def Spared (s : VecState α) : VecOp α → Prop
  | .assign i j =>
    i ≠ j → ∀ v o, s.objs i = some v → s.objs j = some o → if o.len = 0 then v.len = 0
      else v.data = none
  | .push i _ => ∀ v, s.objs i = some v → v.len = v.cap → grown v.cap (v.len + 1) * size < 2 ^ 32
  | .reserve i n => ∀ v, s.objs i = some v → v.cap < n.toNat → grown v.cap n.toNat * size < 2 ^ 32
  | _ => True

/-- Each step of the run is. -/
def AllSpared : VecState α → List (VecOp α) → Prop
  | _, [] => True
  | s, op :: ops => Spared size s op ∧ ∀ s', s.step size op = some s' → AllSpared s' ops

/-! ## One vector -/

/-- The vector is in the memory, with these elements. -/
structure Holds (m : Memory α) (v : Vec) (xs : List α) : Prop where
  /-- The length is that of the list. -/
  len : xs.length = v.len
  /-- The elements fit, -/
  le : v.len ≤ v.cap
  /-- and the bytes of the buffer can be counted. -/
  fits : v.cap * size < 2 ^ 32
  /-- Without a buffer there is no room. -/
  none_cap : v.data = none → v.cap = 0
  /-- The buffer has the elements, in order. -/
  cells : ∀ b, v.data = some b → ∃ B, m.buf b = some B ∧ v.cap ≤ B.room ∧
    ∀ k < v.len, B.cells k = xs[k]?

variable {size} {m m' : Memory α} {v o : Vec} {xs ys : List α} {want n : ℕ}

theorem elements_eq (hsize : 0 < size) (h : n * size < 2 ^ 32) : elements size n = n := by
  rw [elements, Nat.mod_eq_of_lt h, Nat.mul_div_cancel n hsize]

theorem Holds.null : Holds size m null ([] : List α) where
  len := rfl
  le := Nat.le_refl 0
  fits := by
    rw [Vec.null, Nat.zero_mul]
    decide
  none_cap _ := rfl
  cells _ h := absurd h (by simp [Vec.null])

theorem Holds.isSome (h : Holds size m v xs) : ∀ b, v.data = some b → (m.buf b).isSome := by
  intro b hb
  obtain ⟨B, hB, _⟩ := h.cells b hb
  rw [hB]
  rfl

/-- A vector whose buffer is as it was. -/
theorem Holds.frame (h : Holds size m v xs) (hm : ∀ b, v.data = some b → m'.buf b = m.buf b) :
    Holds size m' v xs where
  len := h.len
  le := h.le
  fits := h.fits
  none_cap := h.none_cap
  cells b hb := by
    rw [hm b hb]
    exact h.cells b hb

/-- Fewer elements. -/
theorem Holds.take (h : Holds size m v xs) (hn : n ≤ v.len) :
    Holds size m { v with len := n } (xs.take n) where
  len := by rw [List.length_take, h.len, Nat.min_eq_left hn]
  le := hn.trans h.le
  fits := h.fits
  none_cap := h.none_cap
  cells b hb := by
    obtain ⟨B, hB, hroom, hcells⟩ := h.cells b hb
    refine ⟨B, hB, hroom, fun k hk => ?_⟩
    rw [List.getElem?_take_of_lt hk]
    exact hcells k (hk.trans_le hn)

theorem Holds.contents (h : Holds size m v xs) : contents m v = xs.map some := by
  apply List.ext_getElem?
  intro k
  rw [Vec.contents, List.getElem?_map, List.getElem?_map]
  by_cases hk : k < v.len
  · have hdata : v.data ≠ none := by
      intro hnone
      have := h.none_cap hnone
      have := h.le
      omega
    obtain ⟨b, hb⟩ := Option.ne_none_iff_exists'.mp hdata
    obtain ⟨B, hB, hroom, hcells⟩ := h.cells b hb
    rw [List.getElem?_range hk, hb, Option.map_some,
      Memory.read_eq hB (hk.trans_le (h.le.trans hroom)), hcells k hk,
      List.getElem?_eq_getElem (by rwa [h.len])]
    rfl
  · rw [List.getElem?_eq_none (by simpa using hk),
      List.getElem?_eq_none (by rw [h.len]; exact Nat.not_lt.mp hk)]
    rfl

/-- **A new buffer with the elements of a vector.** -/
theorem Holds.copy (h : Holds size m v xs) (hm : m.Sound) (hn : v.len ≤ n) :
    ∃ B, (m.malloc n).2.copy (some m.next) v.data v.len = some ((m.malloc n).2.set m.next B) ∧
    B.room = n ∧
      ∀ k < v.len, B.cells k = xs[k]? := by
  have hself : (m.malloc n).2.buf m.next = some ⟨n, fun _ => none⟩ := update_self _ _ _
  cases hdata : v.data with
  | none =>
    have hlen : v.len = 0 := Nat.le_zero.mp (h.none_cap hdata ▸ h.le)
    refine ⟨⟨n, fun _ => none⟩, ?_, rfl, fun k hk => absurd hk (by omega)⟩
    rw [hlen, Memory.copy, Memory.set, ← hself, update_eq_self]
  | some b =>
    obtain ⟨S, hS, hroom, hcells⟩ := h.cells b hdata
    have hne : b ≠ m.next := (hm.lt (h.isSome b hdata)).ne
    have hS' : (m.malloc n).2.buf b = some S := (update_of_ne hne _ _).trans hS
    refine ⟨_, Memory.copy_eq hself hS' hne hn (h.le.trans hroom) fun k hk => ?_, rfl,
      fun k hk => ?_⟩
    · rw [hcells k hk, List.getElem?_eq_getElem (by rwa [h.len])]
      rfl
    · show (if k < v.len then S.cells k else none) = _
      rw [if_pos hk, hcells k hk]

/-- **`grow_to`** keeps the elements. -/
theorem growTo_spec (hsize : 0 < size) (h : Holds size m v xs) (hm : m.Sound)
    (hfit : grown v.cap want * size < 2 ^ 32) :
    ∃ m' v', growTo size m v want = some (m', v') ∧ m'.Sound ∧ m.Swap m' v.data v'.data ∧
    Holds size m' v' xs ∧
      v'.cap = grown v.cap want := by
  -- Nothing wraps.
  have hle : ∀ k, k ≤ k * size := fun k => Nat.le_mul_of_pos_right k hsize
  have hcap : (if v.cap ≠ 0 then v.cap * 2 % 2 ^ 32 else 4) = if v.cap = 0 then 4
      else v.cap * 2 := by
    by_cases h0 : v.cap = 0
    · rw [if_pos h0, if_neg (not_not_intro h0)]
    · rw [if_neg h0, if_pos h0]
      have h1 : v.cap * 2 ≤ grown v.cap want := by
        rw [grown, if_neg h0]
        exact Nat.le_max_left _ _
      exact Nat.mod_eq_of_lt ((h1.trans (hle _)).trans_lt hfit)
  have hn : (if (if v.cap ≠ 0 then v.cap * 2 % 2 ^ 32 else 4) < want then want
      else if v.cap ≠ 0 then v.cap * 2 % 2 ^ 32 else 4) = grown v.cap want := by
    rw [hcap, grown]
    generalize (if v.cap = 0 then 4 else v.cap * 2) = c
    by_cases hlt : c < want
    · rw [if_pos hlt, Nat.max_eq_right hlt.le]
    · rw [if_neg hlt, Nat.max_eq_left (Nat.not_lt.mp hlt)]
  have hgrow : v.cap ≤ grown v.cap want := by
    rw [grown]
    split
    · omega
    · exact le_trans (by omega) (Nat.le_max_left _ _)
  obtain ⟨B, hcopy, hroom, hcells⟩ := h.copy hm (h.le.trans hgrow)
  have hlive : ∀ b, v.data = some b →
      (((m.malloc (grown v.cap want)).2.set m.next B).buf b).isSome := by
    intro b hb
    have hne : b ≠ m.next := (hm.lt (h.isSome b hb)).ne
    rw [Memory.set_buf_of_ne hne]
    show (update m.buf m.next _ b).isSome
    rw [update_of_ne hne]
    exact h.isSome b hb
  obtain ⟨m', hfree⟩ := Memory.exists_free hlive
  obtain ⟨hswap, hself⟩ := Memory.swap_replace hm h.isSome hfree
  refine ⟨m', ⟨some m.next, v.len, grown v.cap want⟩, ?_, ?_, hswap, ?_, rfl⟩
  · simp only [growTo, hn, elements_eq hsize hfit]
    show (Memory.copy _ (some m.next) _ _).bind _ = _
    rw [hcopy, Option.bind_some, hfree]
    rfl
  · refine ((hm.malloc (grown v.cap want)).set ?_ B).free hfree
    show (update m.buf m.next _ m.next).isSome
    rw [update_self]
    rfl
  · refine ⟨h.len, h.le.trans hgrow, hfit, fun hnone => absurd hnone (by simp), fun b hb => ?_⟩
    rw [← Option.some.inj hb]
    exact ⟨B, hself, hroom.ge, hcells⟩

/-- **`copy_from`** of a vector with something in it takes a new buffer. -/
theorem copyFrom_spec (hsize : 0 < size) (h : Holds size m o ys) (hm : m.Sound)
    (hlen : o.len ≠ 0) (v : Vec) :
    ∃ m', copyFrom size m v o = some (m', ⟨some m.next, o.len, o.len⟩) ∧ m'.Sound ∧
    m.Swap m' none (some m.next) ∧
      Holds size m' ⟨some m.next, o.len, o.len⟩ ys ∧ m'.next = m.next + 1 ∧ m'.frees = m.frees := by
  have hfit : o.len * size < 2 ^ 32 := (Nat.mul_le_mul_right size h.le).trans_lt h.fits
  obtain ⟨B, hcopy, hroom, hcells⟩ := h.copy hm (Nat.le_refl o.len)
  have hself : (m.malloc o.len).2.buf m.next = some ⟨o.len, fun _ => none⟩ := update_self _ _ _
  refine ⟨(m.malloc o.len).2.set m.next B, ?_, (hm.malloc o.len).set (by rw [hself]; rfl) B, ?_,
    ?_, rfl, rfl⟩
  · simp only [copyFrom, if_neg hlen, elements_eq hsize hfit]
    show (Memory.copy _ (some m.next) _ _).map _ = _
    rw [hcopy]
    rfl
  · exact (Memory.swap_replace (p := none) hm (fun _ hb => absurd hb (by simp)) rfl).1
  · refine ⟨h.len, Nat.le_refl _, hfit, fun hnone => absurd hnone (by simp), fun b hb => ?_⟩
    rw [← Option.some.inj hb]
    exact ⟨B, Memory.set_buf_self _ _ _, hroom.ge, hcells⟩

/-- An element behind the others, where there is room for it. -/
theorem write_spec (hsize : 0 < size) (h : Holds size m v xs) (hm : m.Sound)
    (hlt : v.len < v.cap) (a : α) :
    ∃ m', m.write v.data v.len a = some m' ∧ m'.Sound ∧ m.Swap m' v.data v.data ∧
      Holds size m' { v with len := (v.len + 1) % 2 ^ 32 } (xs ++ [a]) := by
  have hcap : v.cap < 2 ^ 32 := (Nat.le_mul_of_pos_right v.cap hsize).trans_lt h.fits
  have hmod : (v.len + 1) % 2 ^ 32 = v.len + 1 := Nat.mod_eq_of_lt (by omega)
  have hdata : v.data ≠ none := fun hnone => by
    rw [h.none_cap hnone] at hlt
    exact Nat.not_lt_zero _ hlt
  obtain ⟨b, hb⟩ := Option.ne_none_iff_exists'.mp hdata
  obtain ⟨B, hB, hroom, hcells⟩ := h.cells b hb
  have hsome : (m.buf b).isSome := h.isSome b hb
  rw [hb, hmod]
  refine ⟨_, Memory.write_eq hB (hlt.trans_le hroom), hm.set hsome _, Memory.swap_set m b _, ?_⟩
  refine ⟨by rw [List.length_append, h.len]; rfl, hlt, h.fits, fun hnone => absurd hnone (by simp),
    fun c hc => ?_⟩
  obtain rfl : b = c := Option.some.inj hc
  refine ⟨_, Memory.set_buf_self _ _ _, hroom, fun k hk => ?_⟩
  show update B.cells v.len (some a) k = _
  have hk : k < v.len + 1 := hk
  by_cases hkn : k = v.len
  · rw [hkn, update_self, ← h.len, List.getElem?_concat_length]
  · rw [update_of_ne hkn, hcells k (by omega), List.getElem?_append_left (by rw [h.len]; omega)]

/-- **`push`**, if there is room or what is asked for comes back. -/
theorem push_spec (hsize : 0 < size) (h : Holds size m v xs) (hm : m.Sound)
    (hfit : v.len = v.cap → grown v.cap (v.len + 1) * size < 2 ^ 32) (a : α) :
    ∃ m' v', push size m v a = some (m', v') ∧ m'.Sound ∧ m.Swap m' v.data v'.data ∧
      Holds size m' v' (xs ++ [a]) := by
  have hcap : v.cap < 2 ^ 32 := (Nat.le_mul_of_pos_right v.cap hsize).trans_lt h.fits
  have hle := h.le
  by_cases hfull : v.len = v.cap
  · have hfit := hfit hfull
    have hbig : v.len + 1 ≤ grown v.cap (v.len + 1) := Nat.le_max_right _ _
    have hmod : (v.len + 1) % 2 ^ 32 = v.len + 1 :=
      Nat.mod_eq_of_lt ((hbig.trans (Nat.le_mul_of_pos_right _ hsize)).trans_lt hfit)
    obtain ⟨m₁, v₁, hgrow, hm₁, hswap₁, hholds₁, hcap₁⟩ := growTo_spec hsize h hm hfit
    have hlen₁ : v₁.len = v.len := hholds₁.len.symm.trans h.len
    obtain ⟨m₂, hwrite, hm₂, hswap₂, hholds₂⟩ := write_spec hsize hholds₁ hm₁ (by omega) a
    refine ⟨m₂, { v₁ with len := (v₁.len + 1) % 2 ^ 32 }, ?_, hm₂,
      hswap₁.trans_same hswap₂, hholds₂⟩
    rw [push, growIfNeeded, hmod, if_pos (by omega), hgrow, Option.bind_some, hwrite]
    rfl
  · have hlt : v.len < v.cap := lt_of_le_of_ne hle hfull
    obtain ⟨m', hwrite, hm', hswap, hholds⟩ := write_spec hsize h hm hlt a
    have hmod : (v.len + 1) % 2 ^ 32 = v.len + 1 := Nat.mod_eq_of_lt (by omega)
    refine ⟨m', { v with len := (v.len + 1) % 2 ^ 32 }, ?_, hm', hswap, hholds⟩
    rw [push, growIfNeeded, hmod, if_neg (by omega), Option.bind_some, hwrite]
    simp only [hmod, Option.map_some]

/-! ## All vectors -/

/-- **The invariant**: each vector is in the memory with the elements of its list, and each buffer
has one owner. -/
structure Inv (size : ℕ) (s : VecState α) (l : Lists α) : Prop where
  /-- No buffer is given back twice. -/
  sound : s.mem.Sound
  /-- Each buffer has one owner. -/
  owned : s.mem.Owned s.own
  /-- Each vector has the elements of its list. -/
  objs : ∀ i, Option.Rel (Holds size s.mem) (s.objs i) (l i)

variable {s s' : VecState α} {l l' : Lists α} {i j : ℕ}

theorem Inv.start (size : ℕ) : Inv size (VecState.start : VecState α) fun _ => none where
  sound := .empty
  owned := ⟨fun b => iff_of_false (by simp [VecState.start, Memory.empty])
      fun ⟨_, h⟩ => absurd h (by simp [VecState.own, VecState.start]),
    fun _ _ _ h => absurd h (by simp [VecState.own, VecState.start])⟩
  objs _ := .none

variable {ov : Option Vec} {ol : Option (List α)}

theorem rel_cases (h : Option.Rel (Holds size m) ov ol) :
    (ov = none ∧ ol = none) ∨ ∃ v xs, ov = some v ∧ ol = some xs ∧ Holds size m v xs := by
  cases h with
  | none => exact Or.inl ⟨rfl, rfl⟩
  | some h => exact Or.inr ⟨_, _, rfl, rfl, h⟩

theorem rel_frame (h : Option.Rel (Holds size m) ov ol)
    (hm : ∀ v, ov = some v → ∀ b, v.data = some b → m'.buf b = m.buf b) :
    Option.Rel (Holds size m') ov ol := by
  cases h with
  | none => exact .none
  | some h => exact .some (h.frame (hm _ rfl))

theorem rel_contents (h : Option.Rel (Holds size m) ov ol) :
    ov.map (contents m) = ol.map (List.map some) := by
  cases h with
  | none => rfl
  | some h => exact congrArg some h.contents

/-- **The invariant is more than what a good state is.** -/
theorem Inv.good (h : Inv size s l) : Good s l where
  contents i := rel_contents (h.objs i)
  once := h.sound.nodup
  kept b hb := by
    by_cases hlive : (s.mem.buf b).isSome
    · exact Or.inr ((h.owned.owner b).mp hlive)
    · exact Or.inl ((h.sound.freed b).mpr ⟨hb, by simpa using hlive⟩)

theorem own_mk (m : Memory α) (objs : ℕ → Option Vec) (i : ℕ) (o : Option Vec) :
    (VecState.mk m (update objs i o)).own = update (VecState.mk m objs).own i (o.bind data) := by
  funext j
  show (update objs i o j).bind data = _
  by_cases hj : j = i
  · rw [hj, update_self, update_self]
  · rw [update_of_ne hj, update_of_ne hj]
    rfl

theorem own_eq {v : Vec} (hv : s.objs i = some v) : s.own i = v.data := by
  rw [VecState.own, hv]
  rfl

theorem own_none (hv : s.objs i = none) : s.own i = none := by
  rw [VecState.own, hv]
  rfl

namespace Inv

/-- **One vector changes**: its pointer is swapped, and nothing happens to the others. -/
theorem replace (h : Inv size s l) (hm : m'.Sound) (hswap : s.mem.Swap m' (s.own i) (ov.bind data))
    (hrel : Option.Rel (Holds size m') ov ol) :
    Inv size ⟨m', update s.objs i ov⟩ (update l i ol) where
  sound := hm
  owned := by
    rw [own_mk]
    exact h.owned.swap hswap
  objs j := by
    show Option.Rel _ (update s.objs i ov j) (update l i ol j)
    by_cases hj : j = i
    · rw [hj, update_self, update_self]
      exact hrel
    · rw [update_of_ne hj, update_of_ne hj]
      exact rel_frame (h.objs j) fun v hv b hb => h.owned.frame hswap hj ((own_eq hv).trans hb)

/-- **One vector is handed what another had**, which is empty then. -/
theorem hand (h : Inv size s l) (hne : i ≠ j) (hi : s.own i = none) (hj : s.objs j = some o)
    (hlj : l j = some ys) :
    Inv size ⟨s.mem, update (update s.objs j (some null)) i (some o)⟩
      (update (update l j (some [])) i (some ys)) where
  sound := h.sound
  owned := by
    rw [own_mk, own_mk]
    have hmove := h.owned.move hne hi
    rw [own_eq hj] at hmove
    exact hmove
  objs k := by
    show Option.Rel _ (update (update s.objs j (some null)) i (some o) k)
      (update (update l j (some [])) i (some ys) k)
    by_cases hki : k = i
    · have hrel := h.objs j
      rw [hj, hlj] at hrel
      rwa [hki, update_self, update_self]
    · rw [update_of_ne hki, update_of_ne hki]
      by_cases hkj : k = j
      · rw [hkj, update_self, update_self]
        exact .some .null
      · rw [update_of_ne hkj, update_of_ne hkj]
        exact h.objs k

/-- A member function of one vector. -/
theorem modify (h : Inv size s l) {f : List α → List α}
    {g : Memory α → Vec → Option (Memory α × Vec)}
    (hl : l.modify i f = some l')
    (hg : ∀ v xs, s.objs i = some v → l i = some xs → Holds size s.mem v xs →
      ∃ m' v', g s.mem v = some (m', v') ∧ m'.Sound ∧ s.mem.Swap m' v.data v'.data ∧
      Holds size m' v' (f xs)) :
    ∃ s', s.modify i g = some s' ∧ Inv size s' l' := by
  obtain ⟨xs, hxs, rfl⟩ := Option.map_eq_some_iff.mp hl
  rcases rel_cases (h.objs i) with ⟨_, hnone⟩ | ⟨v, xs', hv, hxs', hholds⟩
  · rw [hnone] at hxs
    exact absurd hxs (by simp)
  · obtain rfl : xs = xs' := Option.some.inj (hxs.symm.trans hxs')
    obtain ⟨m', v', hrun, hm', hswap, hholds'⟩ := hg v xs hv hxs hholds
    refine ⟨⟨m', update s.objs i (some v')⟩, ?_, h.replace hm' ?_ (.some hholds')⟩
    · rw [VecState.modify, hv, Option.bind_some, hrun]
      rfl
    · rw [own_eq hv]
      exact hswap

/-- A member function that leaves the buffer alone. -/
theorem modify_same (h : Inv size s l) {f : List α → List α} {g : Vec → Vec}
    (hl : l.modify i f = some l')
    (hg : ∀ v xs, Holds size s.mem v xs → (g v).data = v.data ∧ Holds size s.mem (g v) (f xs)) :
    ∃ s', s.modify i (fun m v => some (m, g v)) = some s' ∧ Inv size s' l' := by
  refine h.modify hl fun v xs _ _ hholds => ?_
  obtain ⟨hdata, hholds'⟩ := hg v xs hholds
  refine ⟨s.mem, g v, rfl, h.sound, ?_, hholds'⟩
  rw [hdata]
  exact .refl hholds.isSome

/-- The list of a vector that is there. -/
theorem exists_obj (h : Inv size s l) (hl : l i = some xs) :
    ∃ v, s.objs i = some v ∧ Holds size s.mem v xs := by
  rcases rel_cases (h.objs i) with ⟨_, hnone⟩ | ⟨v, xs', hv, hxs', hholds⟩
  · rw [hnone] at hl
    exact absurd hl (by simp)
  · obtain rfl : xs = xs' := Option.some.inj (hl.symm.trans hxs')
    exact ⟨v, hv, hholds⟩

theorem objs_none (h : Inv size s l) (hl : ¬ (l i).isSome) : s.objs i = none := by
  rcases rel_cases (h.objs i) with ⟨hnone, _⟩ | ⟨v, xs, _, hxs, _⟩
  · exact hnone
  · rw [hxs] at hl
    exact absurd rfl hl

theorem new (h : Inv size s l) (hl : l.step (.new i) = some l') :
    ∃ s', s.step size (.new i) = some s' ∧ Inv size s' l' := by
  rw [Lists.step] at hl
  split at hl
  · exact absurd hl (by simp)
  · next hno =>
    obtain rfl := Option.some.inj hl
    have hobj := h.objs_none hno
    refine ⟨_, by rw [VecState.step, hobj]; rfl, h.replace h.sound ?_ (.some .null)⟩
    rw [own_none hobj]
    exact .refl fun _ hb => absurd hb (by simp)

/-- **A vector is copied over one that has no buffer**, or over one that is empty as it is. -/
theorem copyFrom (hsize : 0 < size) (h : Inv size s l) (hv : Holds size s.mem v xs)
    (ho : Holds size s.mem o ys)
    (hspared : if o.len = 0 then v.len = 0 else v.data = none) :
    ∃ m' v', copyFrom size s.mem v o = some (m', v') ∧ m'.Sound ∧ s.mem.Swap m' v.data v'.data ∧
      Holds size m' v' ys := by
  by_cases hlen : o.len = 0
  · rw [if_pos hlen] at hspared
    have hys : ys = [] := List.length_eq_zero_iff.mp (ho.len.trans hlen)
    have hxs : xs = [] := List.length_eq_zero_iff.mp (hv.len.trans hspared)
    refine ⟨s.mem, v, by rw [Vec.copyFrom, if_pos hlen], h.sound, .refl hv.isSome, ?_⟩
    rw [hys, ← hxs]
    exact hv
  · rw [if_neg hlen] at hspared
    obtain ⟨m', hrun, hm', hswap, hholds, -⟩ := copyFrom_spec hsize ho h.sound hlen v
    rw [hspared]
    exact ⟨m', _, hrun, hm', hswap, hholds⟩

theorem copy (hsize : 0 < size) (h : Inv size s l) (hl : l.step (.copy i j) = some l') :
    ∃ s', s.step size (.copy i j) = some s' ∧ Inv size s' l' := by
  rw [Lists.step] at hl
  split at hl
  · exact absurd hl (by simp)
  · next hno =>
    obtain ⟨ys, hys, rfl⟩ := Option.map_eq_some_iff.mp hl
    have hobj := h.objs_none hno
    obtain ⟨o, ho, hholds⟩ := h.exists_obj hys
    obtain ⟨m', v', hrun, hm', hswap, hholds'⟩ := h.copyFrom hsize .null hholds (by split <;> rfl)
    refine ⟨⟨m', update s.objs i (some v')⟩, ?_, h.replace hm' ?_ (.some hholds')⟩
    · simp only [VecState.step, hobj, ho, Option.isSome_none, Bool.false_eq_true, if_false,
        Option.bind_some, hrun,
        Option.map_some]
    · rw [own_none hobj]
      exact hswap

theorem take (h : Inv size s l) (hl : l.step (.take i j) = some l') :
    ∃ s', s.step size (.take i j) = some s' ∧ Inv size s' l' := by
  rw [Lists.step] at hl
  split at hl
  · exact absurd hl (by simp)
  · next hno =>
    obtain ⟨ys, hys, rfl⟩ := Option.map_eq_some_iff.mp hl
    have hobj := h.objs_none hno
    obtain ⟨o, ho, hholds⟩ := h.exists_obj hys
    have hne : i ≠ j := by
      rintro rfl
      rw [hobj] at ho
      exact absurd ho (by simp)
    refine ⟨_, ?_, h.hand hne (own_none hobj) ho hys⟩
    simp only [VecState.step, hobj, ho, Option.isSome_none, Bool.false_eq_true,
      if_false, Option.map_some]

theorem assign (hsize : 0 < size) (h : Inv size s l) (hspared : Spared size s (.assign i j))
    (hl : l.step (.assign i j) = some l') :
    ∃ s', s.step size (.assign i j) = some s' ∧ Inv size s' l' := by
  obtain ⟨ys, hys, hl⟩ := Option.bind_eq_some_iff.mp hl
  obtain ⟨o, ho, hholds⟩ := h.exists_obj hys
  rw [VecState.step, ho, Option.bind_some]
  refine h.modify hl fun v xs hv hxs hv' => ?_
  by_cases hij : i = j
  · subst hij
    obtain rfl : xs = ys := Option.some.inj (hxs.symm.trans hys)
    exact ⟨s.mem, v, if_pos rfl, h.sound, .refl hv'.isSome, hv'⟩
  · rw [if_neg hij]
    exact h.copyFrom hsize hv' hholds (hspared hij v o hv ho)

/-- What is left of a vector that is reset. -/
theorem reset (h : Inv size s l) (hv : s.objs i = some v) (hxs : l i = some xs) :
    ∃ m', Vec.reset s.mem v = some (m', null) ∧ m'.Sound ∧ s.mem.Swap m' (s.own i) none := by
  obtain ⟨v', hv', hholds⟩ := h.exists_obj hxs
  obtain rfl : v = v' := Option.some.inj (hv.symm.trans hv')
  obtain ⟨m', hfree⟩ := Memory.exists_free hholds.isSome
  refine ⟨m', by rw [Vec.reset, hfree]; rfl, h.sound.free hfree, ?_⟩
  rw [own_eq hv]
  exact Memory.swap_free hfree

theorem moveAssign (h : Inv size s l) (hl : l.step (.moveAssign i j) = some l') :
    ∃ s', s.step size (.moveAssign i j) = some s' ∧ Inv size s' l' := by
  obtain ⟨ys, hys, hl⟩ := Option.bind_eq_some_iff.mp hl
  obtain ⟨o, ho, hholds⟩ := h.exists_obj hys
  rw [VecState.step, ho, Option.bind_some]
  by_cases hij : i = j
  · rw [if_pos hij] at hl ⊢
    obtain rfl := Option.some.inj hl
    exact ⟨s, rfl, h⟩
  · rw [if_neg hij] at hl ⊢
    obtain ⟨xs, hxs, rfl⟩ := Option.map_eq_some_iff.mp hl
    obtain ⟨v, hv, _⟩ := h.exists_obj hxs
    obtain ⟨m', hreset, hm', hswap⟩ := h.reset hv hxs
    have h' : Inv size ⟨m', update s.objs i (some null)⟩ (update l i (some [])) :=
      h.replace hm' hswap (.some .null)
    have hnull : (VecState.mk m' (update s.objs i (some null))).own i = none :=
      own_eq (v := null) (update_self i (some null) s.objs)
    have hhand := h'.hand hij hnull ((update_of_ne (Ne.symm hij) _ _).trans ho)
      ((update_of_ne (Ne.symm hij) _ _).trans hys)
    refine ⟨_, by rw [hv, Option.bind_some, hreset]; rfl, ?_⟩
    simp only [update_comm hij, update_idem] at hhand
    exact hhand

theorem destroy (h : Inv size s l) (hl : l.step (.destroy i) = some l') :
    ∃ s', s.step size (.destroy i) = some s' ∧ Inv size s' l' := by
  obtain ⟨xs, hxs, rfl⟩ := Option.map_eq_some_iff.mp hl
  obtain ⟨v, hv, _⟩ := h.exists_obj hxs
  obtain ⟨m', hreset, hm', hswap⟩ := h.reset hv hxs
  refine ⟨⟨m', update s.objs i none⟩, ?_, h.replace hm' hswap .none⟩
  rw [VecState.step, hv, Option.bind_some, hreset]
  rfl

theorem reserve (hsize : 0 < size) (h : Inv size s l) {n : UInt32}
    (hspared : Spared size s (.reserve i n))
    (hl : l.step (.reserve i n) = some l') :
    ∃ s', s.step size (.reserve i n) = some s' ∧ Inv size s' l' := by
  refine h.modify (g := fun m v => Vec.reserve size m v n) hl fun v xs hv _ hholds => ?_
  rw [Vec.reserve]
  by_cases hlt : v.cap < n.toNat
  · rw [if_pos hlt]
    obtain ⟨m', v', hgrow, hm', hswap, hholds', -⟩ :=
      growTo_spec hsize hholds h.sound (hspared v hv hlt)
    exact ⟨m', v', hgrow, hm', hswap, hholds'⟩
  · rw [if_neg hlt]
    exact ⟨s.mem, v, rfl, h.sound, .refl hholds.isSome, hholds⟩

/-- **One step keeps the invariant.** -/
theorem step (hsize : 0 < size) (h : Inv size s l) (op : VecOp α) (hspared : Spared size s op)
    (hl : l.step op = some l') : ∃ s', s.step size op = some s' ∧ Inv size s' l' := by
  cases op with
  | new i => exact h.new hl
  | copy i j => exact h.copy hsize hl
  | take i j => exact h.take hl
  | assign i j => exact h.assign hsize hspared hl
  | moveAssign i j => exact h.moveAssign hl
  | push i a =>
    exact h.modify (g := fun m v => Vec.push size m v a) hl fun v xs hv _ hholds =>
      push_spec hsize hholds h.sound (hspared v hv) a
  | pop i =>
    refine h.modify_same hl fun v xs hholds => ?_
    rw [pop]
    split
    · rw [List.dropLast_eq_take, hholds.len]
      exact ⟨rfl, hholds.take (Nat.sub_le _ _)⟩
    · next hlen =>
      have hnil : xs = [] := List.length_eq_zero_iff.mp (hholds.len.trans (not_not.mp hlen))
      rw [hnil] at hholds ⊢
      exact ⟨rfl, hholds⟩
  | clear i => exact h.modify_same hl fun v xs hholds => ⟨rfl, hholds.take (n := 0) (Nat.zero_le _)⟩
  | reserve i n => exact h.reserve hsize hspared hl
  | truncate i n =>
    refine h.modify_same hl fun v xs hholds => ⟨rfl, ?_⟩
    rw [truncate]
    split
    · next hlt => exact hholds.take hlt.le
    · next hge =>
      rw [List.take_of_length_le (by rw [hholds.len]; exact Nat.not_lt.mp hge)]
      exact hholds
  | destroy i => exact h.destroy hl

/-- **All steps do.** -/
theorem refines (hsize : 0 < size) (h : Inv size s l) (ops : List (VecOp α))
    (hspared : AllSpared size s ops) :
    Refines size s l ops := by
  induction ops generalizing s l with
  | nil => exact h.good
  | cons op ops ih =>
    refine ⟨h.good, fun l' hl => ?_⟩
    obtain ⟨s', hs, h'⟩ := h.step hsize op hspared.1 hl
    exact ⟨s', hs, ih h' (hspared.2 s' hs)⟩

end Inv

/-- **An assignment is right** just when it is spared. -/
theorem good_assign_iff (hsize : 0 < size) (h : Inv size s l)
    (hl : l.step (.assign i j) = some l') :
    (∃ s', s.step size (.assign i j) = some s' ∧ Good s' l') ↔ Spared size s (.assign i j) := by
  constructor
  · rintro ⟨s', hs, hgood⟩ hij v o hv ho
    obtain ⟨ys, hys, hl⟩ := Option.bind_eq_some_iff.mp hl
    obtain ⟨xs, _, rfl⟩ := Option.map_eq_some_iff.mp hl
    obtain ⟨o', ho', hholds⟩ := h.exists_obj hys
    obtain rfl : o = o' := Option.some.inj (ho.symm.trans ho')
    simp only [VecState.step, VecState.modify, ho, hv, Option.bind_some, if_neg hij] at hs
    by_cases hlen : o.len = 0
    · rw [if_pos hlen]
      rw [copyFrom, if_pos hlen] at hs
      obtain rfl := Option.some.inj hs
      -- What was in it is there as before, and nothing should be.
      have hcontents := hgood.contents i
      simp only [update_self, Option.map_some, Option.some.injEq] at hcontents
      have := congrArg List.length hcontents
      rwa [List.length_map, hholds.len, hlen, contents, List.length_map, List.length_range] at this
    · rw [if_neg hlen]
      obtain ⟨m', hrun, -, -, -, hnext, hfrees⟩ := copyFrom_spec hsize hholds h.sound hlen v
      rw [hrun] at hs
      obtain rfl := Option.some.inj hs
      by_contra hdata
      obtain ⟨b, hb⟩ := Option.ne_none_iff_exists'.mp hdata
      have hown : s.own i = some b := (own_eq hv).trans hb
      have hlive : (s.mem.buf b).isSome := (h.owned.owner b).mpr ⟨i, hown⟩
      have hlt : b < s.mem.next := h.sound.lt hlive
      -- The buffer that was there has not been given back, and nobody has it any more.
      rcases hgood.kept b (by rw [hnext]; omega) with hmem | ⟨k, hk⟩
      · rw [hfrees, h.sound.freed] at hmem
        rw [hmem.2] at hlive
        exact absurd hlive (by simp)
      · rw [own_mk] at hk
        by_cases hki : k = i
        · rw [hki, update_self] at hk
          exact absurd (Option.some.inj hk) (by omega)
        · rw [update_of_ne hki] at hk
          exact hki (h.owned.unique k i b hk hown)
  · intro hspared
    obtain ⟨s', hs, h'⟩ := h.assign hsize hspared hl
    exact ⟨s', hs, h'.good⟩

/-- **Vectors are values** in every run in which each step is spared. -/
theorem value_semantics (hsize : 0 < size) (ops : List (VecOp α)) (h : AllSpared size .start ops) :
    Refines size .start (fun _ => none) ops :=
  (Inv.start size).refines hsize ops h

/-- A vector is filled, copied, handed on and given up. -/
theorem value_semantics_two :
    Refines 4 (VecState.start : VecState ℕ) (fun _ => none)
      [.new 0, .push 0 7, .copy 1 0, .moveAssign 0 1, .destroy 0] := by
  refine value_semantics (by decide) _ ⟨trivial, fun s hs => ?_⟩
  obtain rfl := Option.some.inj hs
  refine ⟨fun v hv _ => ?_, fun s hs => ⟨trivial, fun s hs => ⟨trivial, fun s hs => ⟨trivial,
    fun s hs => trivial⟩⟩⟩⟩
  obtain rfl := Option.some.inj hv
  decide

/-- After `a = b` with nothing in `b`, the element that was in `a` is still there. -/
theorem not_refines_empty :
    ¬ Refines 4 (VecState.start : VecState ℕ) (fun _ => none) [.new 0, .push 0 7,
      .new 1, .assign 0 1] := by
  intro h
  obtain ⟨s, hs, h⟩ := h.2 _ rfl
  obtain rfl := Option.some.inj hs
  obtain ⟨s, hs, h⟩ := h.2 _ rfl
  obtain rfl := Option.some.inj hs
  obtain ⟨s, hs, h⟩ := h.2 _ rfl
  obtain rfl := Option.some.inj hs
  obtain ⟨s, hs, h⟩ := h.2 _ rfl
  obtain rfl := Option.some.inj hs
  exact absurd (h.contents 0) (by decide)

end Vec

end Aurisys
