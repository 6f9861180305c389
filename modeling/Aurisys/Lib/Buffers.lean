import Mathlib.Logic.Function.Basic
import Mathlib.Data.List.Basic

/-!
# Buffers and their owners

A memory gives out buffers, and takes them back. A buffer has room for so many cells, and a cell
holds nothing until it is written to. Whoever reads what is not there, writes outside a buffer or
gives back what is gone, has no memory any more.

A pointer has one owner. When an owner gets another pointer, what the first one pointed to has to be
given back, and what the new one points to has to be new: this is a swap.

## Main definitions

* `Memory`, `Memory.malloc`, `Memory.free`, `Memory.read`, `Memory.write`, `Memory.copy`
* `Memory.Sound` — a buffer is there, or it has been given back once
* `Memory.Owned` — each buffer that is there has one owner
* `Memory.Swap` — an owner gets another pointer

## Main results

* `Memory.copy_eq` — what is copied
* `Memory.Owned.swap`, `Memory.Owned.move` — the owners after a swap, and after a pointer is handed
  on
-/

namespace Aurisys

open Function

structure Buffer (α : Type*) where
  room : ℕ
  cells : ℕ → Option α

structure Memory (α : Type*) where
  next : ℕ
  buf : ℕ → Option (Buffer α)
  /-- What has been given back, the last one first. -/
  frees : List ℕ

namespace Memory

variable {α : Type*} {m m' : Memory α} {b d s : ℕ} {B D S : Buffer α} {k n : ℕ} {a : α}

/-- No buffer has been given out. -/
def empty : Memory α := ⟨0, fun _ => none, []⟩

def malloc (m : Memory α) (room : ℕ) : ℕ × Memory α :=
  (m.next, { m with next := m.next + 1, buf := update m.buf m.next (some ⟨room, fun _ => none⟩) })

def free (m : Memory α) : Option ℕ → Option (Memory α)
  | none => some m
  | some b => (m.buf b).map fun _ => { m with buf := update m.buf b none, frees := b :: m.frees }

def read (m : Memory α) (p : Option ℕ) (k : ℕ) : Option α :=
  p.bind fun b => (m.buf b).bind fun B => if k < B.room then B.cells k else none

def write (m : Memory α) (p : Option ℕ) (k : ℕ) (a : α) : Option (Memory α) :=
  p.bind fun b => (m.buf b).bind fun B =>
    if k < B.room then some
      { m with buf := update m.buf b (some { B with cells := update B.cells k (some a) }) }
    else none

/-- The first cells, one after the other. -/
def copy (m : Memory α) (dst src : Option ℕ) : ℕ → Option (Memory α)
  | 0 => some m
  | k + 1 => (m.copy dst src k).bind fun m => (m.read src k).bind fun a => m.write dst k a

/-- A buffer is set. -/
def set (m : Memory α) (b : ℕ) (B : Buffer α) : Memory α :=
  { m with buf := update m.buf b (some B) }

@[simp] theorem set_buf_self (m : Memory α) (b : ℕ) (B : Buffer α) : (m.set b B).buf b = some B :=
  update_self b _ _

theorem set_buf_of_ne (hne : s ≠ d) : (m.set d D).buf s = m.buf s := update_of_ne hne _ _

theorem set_set (m : Memory α) (b : ℕ) (B D : Buffer α) : (m.set b B).set b D = m.set b D := by
  rw [set, set, set, update_idem]

theorem read_eq (hb : m.buf b = some B) (hk : k < B.room) : m.read (some b) k = B.cells k := by
  rw [read, Option.bind_some, hb, Option.bind_some, if_pos hk]

theorem write_eq (hb : m.buf b = some B) (hk : k < B.room) :
    m.write (some b) k a = some (m.set b { B with cells := update B.cells k (some a) }) := by
  rw [write, Option.bind_some, hb, Option.bind_some, if_pos hk]
  rfl

/-- **What is copied**, if the one buffer has all that is asked for and the other has room for
it. -/
theorem copy_eq (hd : m.buf d = some D) (hs : m.buf s = some S) (hne : s ≠ d) (hn : n ≤ D.room)
    (hn' : n ≤ S.room) (hcells : ∀ k < n, (S.cells k).isSome) :
    m.copy (some d) (some s) n =
      some (m.set d { D with cells := fun k => if k < n then S.cells k else D.cells k }) := by
  induction n with
  | zero =>
    have hbuf : m.set d { D with cells := fun k => if k < 0 then S.cells k else D.cells k } =
        m := by
      rw [set]
      simp only [Nat.not_lt_zero, if_false]
      rw [← hd, update_eq_self]
    rw [hbuf, copy]
  | succ n ih =>
    have ih :=
      ih (Nat.le_of_succ_le hn) (Nat.le_of_succ_le hn') fun k hk => hcells k (Nat.lt_succ_of_lt hk)
    obtain ⟨a, ha⟩ := Option.isSome_iff_exists.mp (hcells n (Nat.lt_succ_self n))
    rw [copy, ih, Option.bind_some, read_eq (set_buf_of_ne hne |>.trans hs) hn',
      ha, Option.bind_some,
      write_eq (B := ⟨D.room, fun k => if k < n then S.cells k
        else D.cells k⟩) (set_buf_self m d _) hn, set_set]
    congr 2
    rw [Buffer.mk.injEq]
    refine ⟨rfl, funext fun k => ?_⟩
    show update (fun k => if k < n then S.cells k else D.cells k) n (some a) k = _
    by_cases hk : k = n
    · rw [hk, update_self, if_pos (Nat.lt_succ_self n), ha]
    · rw [update_of_ne hk]
      by_cases hlt : k < n
      · rw [if_pos hlt, if_pos (Nat.lt_succ_of_lt hlt)]
      · rw [if_neg hlt, if_neg (by omega)]

/-! ## What has become of each buffer -/

/-- **A buffer that was given out is there, or it has been given back once.** -/
structure Sound (m : Memory α) : Prop where
  /-- No buffer is given back twice. -/
  nodup : m.frees.Nodup
  /-- What was given back is not there. -/
  freed : ∀ b, b ∈ m.frees ↔ b < m.next ∧ m.buf b = none
  /-- What was not given out is not there. -/
  fresh : ∀ b, m.next ≤ b → m.buf b = none

theorem Sound.empty : (empty : Memory α).Sound := by
  refine ⟨List.nodup_nil, fun b => iff_of_false List.not_mem_nil fun h => ?_, fun _ _ => rfl⟩
  exact Nat.not_lt_zero b h.1

namespace Sound

theorem lt (h : m.Sound) (hb : (m.buf b).isSome) : b < m.next := by
  by_contra hlt
  rw [h.fresh b (Nat.not_lt.mp hlt)] at hb
  exact absurd hb (by simp)

theorem malloc (h : m.Sound) (room : ℕ) : (m.malloc room).2.Sound := by
  refine ⟨h.nodup, fun b => ?_, fun b hb => ?_⟩
  · show b ∈ m.frees ↔ b < m.next + 1 ∧ update m.buf m.next _ b = none
    rw [h.freed]
    by_cases hb : b = m.next
    · rw [hb, update_self]
      simp
    · rw [update_of_ne hb]
      exact and_congr_left fun _ => by omega
  · show update m.buf m.next _ b = none
    have hlt : m.next < b := hb
    rw [update_of_ne (by omega)]
    exact h.fresh b (Nat.le_of_lt hlt)

theorem set (h : m.Sound) (hb : (m.buf b).isSome) (B : Buffer α) : (m.set b B).Sound := by
  have hnone : ∀ c, update m.buf b (some B) c = none ↔ m.buf c = none := by
    intro c
    by_cases hc : c = b
    · rw [hc, update_self]
      exact iff_of_false (Option.some_ne_none B) (Option.isSome_iff_ne_none.mp hb)
    · rw [update_of_ne hc]
  exact ⟨h.nodup, fun c => (h.freed c).trans (and_congr_right fun _ => (hnone c).symm),
    fun c hc => (hnone c).mpr (h.fresh c hc)⟩

theorem free (h : m.Sound) {p : Option ℕ} (hf : m.free p = some m') : m'.Sound := by
  cases p with
  | none =>
    obtain rfl := Option.some.inj hf
    exact h
  | some b =>
    obtain ⟨B, hB, rfl⟩ := Option.map_eq_some_iff.mp hf
    have hlt : b < m.next := h.lt (by rw [hB]; rfl)
    refine ⟨List.nodup_cons.mpr ⟨fun hmem => ?_, h.nodup⟩, fun c => ?_, fun c hc => ?_⟩
    · rw [((h.freed b).mp hmem).2] at hB
      exact absurd hB (by simp)
    · show c ∈ b :: m.frees ↔ c < m.next ∧ update m.buf b none c = none
      rw [List.mem_cons, h.freed]
      by_cases hcb : c = b
      · rw [hcb, update_self]
        simp [hlt]
      · rw [update_of_ne hcb]
        simp [hcb]
    · show update m.buf b none c = none
      have hne : c ≠ b := fun he => absurd hlt (Nat.not_lt.mpr (he ▸ hc))
      rw [update_of_ne hne]
      exact h.fresh c hc

end Sound

/-! ## Owners -/

variable {ι : Type*} {own own' : ι → Option ℕ} {i j : ι} {p q : Option ℕ}

/-- **Each buffer that is there has one owner.** -/
structure Owned (m : Memory α) (own : ι → Option ℕ) : Prop where
  owner : ∀ b, (m.buf b).isSome ↔ ∃ i, own i = some b
  unique : ∀ i j b, own i = some b → own j = some b → i = j

/-- An owner of `p` gets `q`. -/
structure Swap (m m' : Memory α) (p q : Option ℕ) : Prop where
  /-- The other buffers are as they were. -/
  same : ∀ b, p ≠ some b → q ≠ some b → m'.buf b = m.buf b
  /-- The old one is not there any more. -/
  gone : ∀ b, p = some b → q ≠ some b → m'.buf b = none
  /-- The new one is there, -/
  here : ∀ b, q = some b → (m'.buf b).isSome
  /-- and was not. -/
  new : ∀ b, q = some b → p ≠ some b → m.buf b = none

theorem Swap.refl (h : ∀ b, p = some b → (m.buf b).isSome) : Swap m m p p where
  same _ _ _ := rfl
  gone _ hp hq := absurd hp hq
  here := h
  new _ hp hq := absurd hp hq

/-- The new buffer is written to. -/
theorem Swap.trans_same {m₁ m₂ : Memory α} (h : Swap m m₁ p q) (h' : Swap m₁ m₂ q q) :
    Swap m m₂ p q where
  same b hp hq := (h'.same b hq hq).trans (h.same b hp hq)
  gone b hp hq := (h'.same b hq hq).trans (h.gone b hp hq)
  here := h'.here
  new := h.new

theorem swap_free (h : m.free p = some m') : Swap m m' p none := by
  cases p with
  | none =>
    obtain rfl := Option.some.inj h
    exact .refl fun _ h => absurd h (by simp)
  | some b =>
    obtain ⟨B, hB, rfl⟩ := Option.map_eq_some_iff.mp h
    refine ⟨fun c hc _ => ?_, fun c hc _ => ?_, fun _ h => absurd h (by simp),
      fun _ h => absurd h (by simp)⟩
    · exact update_of_ne (fun h => hc (congrArg some h.symm)) _ _
    · rw [← Option.some.inj hc]
      exact update_self _ _ _

/-- What there is can be given back. -/
theorem exists_free (h : ∀ b, p = some b → (m.buf b).isSome) : ∃ m', m.free p = some m' := by
  cases p with
  | none => exact ⟨m, rfl⟩
  | some b =>
    obtain ⟨B, hB⟩ := Option.isSome_iff_exists.mp (h b rfl)
    exact ⟨_, by rw [free, hB]; rfl⟩

/-- A new buffer is taken and filled before the old one is given back. -/
theorem swap_replace (h : m.Sound) (hp : ∀ b, p = some b → (m.buf b).isSome) {room : ℕ}
    (hf : ((m.malloc room).2.set m.next B).free p = some m') :
    Swap m m' p (some m.next) ∧ m'.buf m.next = some B := by
  have hnew : m.buf m.next = none := h.fresh m.next (Nat.le_refl _)
  have hne : p ≠ some m.next := by
    intro he
    have := hp m.next he
    rw [hnew] at this
    exact absurd this (by simp)
  have hbuf : ∀ b, ((m.malloc room).2.set m.next B).buf b = if b = m.next then some B
      else m.buf b := by
    intro b
    by_cases hb : b = m.next
    · rw [if_pos hb, hb, set_buf_self]
    · rw [if_neg hb, set_buf_of_ne hb]
      exact update_of_ne hb _ _
  have hs := swap_free hf
  have hhere : m'.buf m.next = some B := by
    rw [hs.same m.next hne (by simp), hbuf, if_pos rfl]
  refine ⟨⟨fun b hb hq => ?_, fun b hb _ => hs.gone b hb (by simp), fun b hb => ?_,
    fun b hb _ => ?_⟩, hhere⟩
  · rw [hs.same b hb (by simp), hbuf, if_neg fun he => hq (congrArg some he.symm)]
  · rw [← Option.some.inj hb, hhere]
    rfl
  · rw [← Option.some.inj hb, hnew]

theorem swap_set (m : Memory α) (b : ℕ) (B : Buffer α) : Swap m (m.set b B) (some b) (some b) := by
  refine ⟨fun c hc _ => ?_, fun c hp hq => absurd hp hq, fun c hc => ?_,
    fun c hp hq => absurd hp hq⟩
  · exact update_of_ne (fun h => hc (congrArg some h.symm)) _ _
  · rw [← Option.some.inj hc]
    show (update m.buf b _ b).isSome
    rw [update_self]
    rfl

namespace Owned

variable [DecidableEq ι]

omit [DecidableEq ι] in
/-- A buffer of another owner is neither the one given back nor the new one. -/
theorem other (h : m.Owned own) (hs : Swap m m' (own i) q) (hj : j ≠ i) (hb : own j = some b) :
    own i ≠ some b ∧ q ≠ some b := by
  have hne : own i ≠ some b := fun hi => hj (h.unique j i b hb hi)
  refine ⟨hne, fun hq => ?_⟩
  have := (h.owner b).mpr ⟨j, hb⟩
  rw [hs.new b hq hne] at this
  exact absurd this (by simp)

omit [DecidableEq ι] in
/-- **The buffers of the others are as they were.** -/
theorem frame (h : m.Owned own) (hs : Swap m m' (own i) q) (hj : j ≠ i) (hb : own j = some b) :
    m'.buf b = m.buf b := by
  obtain ⟨hp, hq⟩ := h.other hs hj hb
  exact hs.same b hp hq

/-- **The owners after a swap.** -/
theorem swap (h : m.Owned own) (hs : Swap m m' (own i) q) : m'.Owned (update own i q) := by
  have hnew : ∀ b, (∃ j, update own i q j = some b) ↔ q = some b ∨ ∃ j, j ≠ i ∧ own j = some b := by
    intro b
    constructor
    · rintro ⟨j, hj⟩
      by_cases hij : j = i
      · rw [hij, update_self] at hj
        exact Or.inl hj
      · rw [update_of_ne hij] at hj
        exact Or.inr ⟨j, hij, hj⟩
    · rintro (hq | ⟨j, hij, hj⟩)
      · exact ⟨i, by rw [update_self, hq]⟩
      · exact ⟨j, by rw [update_of_ne hij, hj]⟩
  refine ⟨fun b => ?_, fun j k b hj hk => ?_⟩
  · rw [hnew]
    by_cases hq : q = some b
    · exact iff_of_true (hs.here b hq) (Or.inl hq)
    · rw [or_iff_right hq]
      by_cases hp : own i = some b
      · rw [hs.gone b hp hq]
        refine iff_of_false (by simp) ?_
        rintro ⟨j, hij, hj⟩
        exact (h.other hs hij hj).1 hp
      · rw [hs.same b hp hq, h.owner]
        exact ⟨fun ⟨j, hj⟩ => ⟨j, fun hij => hp (hij ▸ hj), hj⟩, fun ⟨j, _, hj⟩ => ⟨j, hj⟩⟩
  · by_cases hji : j = i
    · by_cases hki : k = i
      · rw [hji, hki]
      · rw [hji, update_self] at hj
        rw [update_of_ne hki] at hk
        exact absurd hj (h.other hs hki hk).2
    · rw [update_of_ne hji] at hj
      by_cases hki : k = i
      · rw [hki, update_self] at hk
        exact absurd hk (h.other hs hji hj).2
      · rw [update_of_ne hki] at hk
        exact h.unique j k b hj hk

/-- **The owners after a pointer is handed on.** -/
theorem move (h : m.Owned own) (hne : i ≠ j) (hi : own i = none) :
    m.Owned (update (update own j none) i (own j)) := by
  have hget : ∀ k b, update (update own j none) i (own j) k = some b ↔
      (k = i ∧ own j = some b) ∨ (k ≠ i ∧ k ≠ j ∧ own k = some b) := by
    intro k b
    by_cases hki : k = i
    · rw [hki, update_self]
      simp
    · rw [update_of_ne hki]
      by_cases hkj : k = j
      · rw [hkj, update_self]
        simp [hne.symm]
      · rw [update_of_ne hkj]
        simp [hki, hkj]
  refine ⟨fun b => ?_, fun k l b hk hl => ?_⟩
  · rw [h.owner]
    constructor
    · rintro ⟨k, hk⟩
      by_cases hkj : k = j
      · exact ⟨i, (hget i b).mpr (Or.inl ⟨rfl, hkj ▸ hk⟩)⟩
      · have hki : k ≠ i := by
          rintro rfl
          rw [hi] at hk
          exact absurd hk (by simp)
        exact ⟨k, (hget k b).mpr (Or.inr ⟨hki, hkj, hk⟩)⟩
    · rintro ⟨k, hk⟩
      rcases (hget k b).mp hk with hk | hk
      · exact ⟨j, hk.2⟩
      · exact ⟨k, hk.2.2⟩
  · rcases (hget k b).mp hk with ⟨hki, hk'⟩ | ⟨_, hkj, hk'⟩
    · rcases (hget l b).mp hl with ⟨hli, _⟩ | ⟨_, hlj, hl'⟩
      · rw [hki, hli]
      · exact absurd (h.unique l j b hl' hk') hlj
    · rcases (hget l b).mp hl with ⟨_, hl'⟩ | ⟨_, _, hl'⟩
      · exact absurd (h.unique k j b hk' hl') hkj
      · exact h.unique k l b hk' hl'

end Owned

end Memory

end Aurisys
