import Mathlib.Algebra.GroupWithZero.Nat
import Mathlib.Data.Finset.Card
import Mathlib.Logic.Function.Basic

/-!
# Page allocators and typed heaps

A page allocator hands out runs of pages and takes them back. What a client needs of it is only
which runs are handed out, so that is the one thing the laws talk about: a new run is apart from
every run that is out, and giving one back ends that run and no other.

A *typing* of the heap says what the client keeps at the addresses it holds. The kind of an object
names the one place that points at it, so two different places never hold the same address: that
is all the aliasing information a proof needs, and it is kept by one lemma for each of taking,
giving back and changing hands.

The laws are about runs of fewer than `2 ^ 16` pages, whose size in bytes does not wrap.

## Main definitions

* `PageAlloc` — a page allocator and its laws
* `Typed` — every typed address is handed out, with the size of its kind
* `HasPages`, `takePages`, `pageAt` — the next requests will be met, and with which pages
* `Audit` — an allocator with a record of what was given back
* `Bump` — the simplest page allocator

## Main results

* `Typed.take`, `Typed.freeAll`, `Typed.retype` — how a typing changes
* `Typed.apart` — a new run is apart from the typed ones
* `Grew.alloc`, `Grew.free` — what was out before a series of calls is still out after it
-/

namespace Aurisys

/-- A page allocator. `live h p` is the number of bytes handed out at `p`, if any; the null pointer
`0` is never handed out, and stands for failure. -/
class PageAlloc (H : Type) where
  allocN : H → ℕ → ℕ × H
  free : H → ℕ → H
  live : H → ℕ → Option ℕ
  live_zero (h : H) : live h 0 = none
  allocN_fail (h : H) (n : ℕ) : n < 2 ^ 16 → (allocN h n).1 = 0 → live (allocN h n).2 = live h
  allocN_live (h : H) (n : ℕ) : n < 2 ^ 16 → (allocN h n).1 ≠ 0 →
    live (allocN h n).2 = Function.update (live h) (allocN h n).1 (some (n * 4096))
  allocN_fresh (h : H) (n : ℕ) : n < 2 ^ 16 → (allocN h n).1 ≠ 0 → live h (allocN h n).1 = none
  allocN_apart (h : H) (n : ℕ) : n < 2 ^ 16 → (allocN h n).1 ≠ 0 → ∀ q b, live h q = some b →
    q + b ≤ (allocN h n).1 ∨ (allocN h n).1 + n * 4096 ≤ q
  allocN_dvd (h : H) (n : ℕ) : n < 2 ^ 16 → 4096 ∣ (allocN h n).1
  allocN_le (h : H) (n : ℕ) : n < 2 ^ 16 → (allocN h n).1 ≠ 0 →
    (allocN h n).1 + n * 4096 < 2 ^ 32
  free_zero (h : H) : free h 0 = h
  free_live (h : H) (p : ℕ) : (live h p).isSome →
    live (free h p) = Function.update (live h) p none

namespace Pages

open PageAlloc

variable {H : Type} [PageAlloc H] {K : Type} {size : K → ℕ} {h h' : H} {ty ty' : ℕ → Option K}
  {n p : ℕ} {k : K}

/-- Every typed address is handed out, with as many bytes as its kind has. -/
def Typed (size : K → ℕ) (h : H) (ty : ℕ → Option K) : Prop :=
  ∀ p k, ty p = some k → live h p = some (size k)

theorem Typed.zero (ht : Typed size h ty) : ty 0 = none := by
  cases h0 : ty 0 with
  | none => rfl
  | some k =>
    have := ht 0 k h0
    rw [live_zero] at this
    cases this

theorem Typed.ne_zero (ht : Typed size h ty) (hp : ty p = some k) : p ≠ 0 := by
  rintro rfl
  rw [ht.zero] at hp
  cases hp

theorem Typed.mono (ht : Typed size h ty) (hle : ∀ q l, ty' q = some l → ty q = some l) :
    Typed size h ty' :=
  fun q l hq => ht q l (hle q l hq)

/-- A request that fails keeps the typing. -/
theorem Typed.alloc_fail (ht : Typed size h ty) (hn : n < 2 ^ 16) (ha : allocN h n = (0, h')) :
    Typed size h' ty := by
  have hl := allocN_fail h n hn (by rw [ha])
  rw [ha] at hl
  intro q l hq
  rw [hl]
  exact ht q l hq

theorem Typed.fresh (ht : Typed size h ty) (hn : n < 2 ^ 16) (hp : p ≠ 0)
    (ha : allocN h n = (p, h')) : ty p = none := by
  have hf := allocN_fresh h n hn (by rw [ha]; exact hp)
  rw [ha] at hf
  cases hty : ty p with
  | none => rfl
  | some k =>
    rw [ht p k hty] at hf
    cases hf

/-- **Taking.** A new run gets the kind the client wants. -/
theorem Typed.alloc (ht : Typed size h ty) (hn : n < 2 ^ 16) (hp : p ≠ 0)
    (ha : allocN h n = (p, h')) (hk : size k = n * 4096) :
    Typed size h' (Function.update ty p (some k)) := by
  have hl := allocN_live h n hn (by rw [ha]; exact hp)
  rw [ha] at hl
  intro q l hq
  rw [hl]
  by_cases hqp : q = p
  · subst hqp
    rw [Function.update_self] at hq ⊢
    cases hq
    rw [hk]
  · rw [Function.update_of_ne hqp] at hq ⊢
    exact ht q l hq

/-- The typing `ty'` is `ty` and a new object of kind `k` at `p`. -/
structure Taken (ty ty' : ℕ → Option K) (p : ℕ) (k : K) : Prop where
  /-- There was nothing at `p`. -/
  fresh : ty p = none
  /-- There is the object. -/
  self : ty' p = some k
  /-- Everything keeps its kind, -/
  old : ∀ q l, ty q = some l → ty' q = some l
  /-- and there is nothing else new. -/
  new : ∀ q l, ty' q = some l → ty q = some l ∨ q = p ∧ l = k

theorem taken_update (hp : ty p = none) (k : K) : Taken ty (Function.update ty p (some k)) p k := by
  refine ⟨hp, Function.update_self .., fun q l hq => ?_, fun q l hq => ?_⟩
  · have hqp : q ≠ p := by
      rintro rfl
      rw [hp] at hq
      cases hq
    rw [Function.update_of_ne hqp, hq]
  · by_cases hqp : q = p
    · subst hqp
      rw [Function.update_self] at hq
      exact Or.inr ⟨rfl, (Option.some.inj hq).symm⟩
    · rw [Function.update_of_ne hqp] at hq
      exact Or.inl hq

/-- A new object is at an address of its own. -/
theorem Taken.ne (ht : Taken ty ty' p k) {q : ℕ} {l : K} (hq : ty q = some l) : q ≠ p := by
  rintro rfl
  rw [ht.fresh] at hq
  cases hq

theorem Typed.take (ht : Typed size h ty) (hn : n < 2 ^ 16) (hp : p ≠ 0)
    (ha : allocN h n = (p, h')) (hk : size k = n * 4096) :
    ∃ ty', Taken ty ty' p k ∧ Typed size h' ty' :=
  ⟨_, taken_update (ht.fresh hn hp ha) k, ht.alloc hn hp ha hk⟩

/-- A run that is taken and not tracked keeps the typing of the rest. -/
theorem Typed.alloc_leak (ht : Typed size h ty) (hn : n < 2 ^ 16) (ha : allocN h n = (p, h')) :
    Typed size h' ty := by
  by_cases hp : p = 0
  · exact ht.alloc_fail hn (hp ▸ ha)
  · have hl := allocN_live h n hn (by rw [ha]; exact hp)
    have hf := ht.fresh hn hp ha
    rw [ha] at hl
    intro q l hq
    have hqp : q ≠ p := by
      rintro rfl
      rw [hf] at hq
      cases hq
    rw [hl, Function.update_of_ne hqp]
    exact ht q l hq

/-- **Giving back.** -/
theorem Typed.free (ht : Typed size h ty) (hp : ty p = some k) :
    Typed size (free h p) (Function.update ty p none) := by
  have hl := free_live h p (by rw [ht p k hp]; rfl)
  intro q l hq
  rw [hl]
  by_cases hqp : q = p
  · subst hqp
    rw [Function.update_self] at hq
    cases hq
  · rw [Function.update_of_ne hqp] at hq ⊢
    exact ht q l hq

/-- The typing without the addresses of a list. -/
def without (ps : List ℕ) (ty : ℕ → Option K) : ℕ → Option K :=
  fun p => if p ∈ ps then none else ty p

theorem without_eq_some {ps : List ℕ} : without ps ty p = some k ↔ p ∉ ps ∧ ty p = some k := by
  rw [without]
  split <;> simp [*]

/-- Giving back one address after the other. -/
theorem Typed.freeAll {ps : List ℕ} (ht : Typed size h ty) (hnd : ps.Nodup)
    (hps : ∀ p ∈ ps, ∃ k, ty p = some k) : Typed size (ps.foldl PageAlloc.free h)
    (without ps ty) := by
  induction ps generalizing h ty with
  | nil => exact ht.mono fun q l hq => (without_eq_some.mp hq).2
  | cons p ps ih =>
    obtain ⟨hp, hnd'⟩ := List.nodup_cons.mp hnd
    obtain ⟨k, hk⟩ := hps p List.mem_cons_self
    have hstep := ih (ht.free hk) hnd' fun q hq => by
      have hqp : q ≠ p := by
        rintro rfl
        exact hp hq
      rw [Function.update_of_ne hqp]
      exact hps q (List.mem_cons_of_mem _ hq)
    refine hstep.mono fun q l hq => ?_
    obtain ⟨hq1, hq2⟩ := without_eq_some.mp hq
    obtain ⟨hqp, hq'⟩ := not_or.mp (mt List.mem_cons.mpr hq1)
    exact without_eq_some.mpr ⟨hq', by rw [Function.update_of_ne hqp, hq2]⟩

/-- **Changing hands.** An object gets another kind of the same size. -/
theorem Typed.retype {k' : K} (ht : Typed size h ty) (hp : ty p = some k)
    (hk : size k' = size k) : Typed size h (Function.update ty p (some k')) := by
  intro q l hq
  by_cases hqp : q = p
  · subst hqp
    rw [Function.update_self] at hq
    cases hq
    rw [hk]
    exact ht q k hp
  · rw [Function.update_of_ne hqp] at hq
    exact ht q l hq

/-- A new run is apart from the typed ones. -/
theorem Typed.apart (ht : Typed size h ty) (hn : n < 2 ^ 16) (hp : p ≠ 0)
    (ha : allocN h n = (p, h')) {q : ℕ} {l : K} (hq : ty q = some l) :
    q + size l ≤ p ∨ p + n * 4096 ≤ q := by
  have hap := allocN_apart h n hn (by rw [ha]; exact hp) q (size l) (ht q l hq)
  rwa [ha] at hap

/-! ## Enough pages -/

/-- The next `n` requests of one page will be met. -/
def HasPages (h : H) : ℕ → Prop
  | 0 => True
  | n + 1 => (allocN h 1).1 ≠ 0 ∧ HasPages (allocN h 1).2 n

instance decidableHasPages : ∀ (n : ℕ) (h : H), Decidable (HasPages h n)
  | 0, _ => inferInstanceAs (Decidable True)
  | n + 1, h =>
    have := decidableHasPages n (allocN h 1).2
    inferInstanceAs (Decidable (_ ∧ _))

/-- The heap after `n` requests of one page. -/
def takePages (h : H) : ℕ → H
  | 0 => h
  | n + 1 => takePages (allocN h 1).2 n

/-- The page that the request after `n` others gets. -/
def pageAt (h : H) (n : ℕ) : ℕ := (allocN (takePages h n) 1).1

/-- What is handed out stays so while pages are taken, and no page taken is at its address. -/
theorem HasPages.ne_of_live {q : ℕ} : ∀ {n : ℕ} {h : H}, HasPages h n → (live h q).isSome →
    (live (takePages h n) q).isSome ∧ ∀ i < n, pageAt h i ≠ q := by
  intro n
  induction n with
  | zero => exact fun _ hq => ⟨hq, fun i hi => absurd hi (Nat.not_lt_zero i)⟩
  | succ n ih =>
    intro h hn hq
    have hne : (allocN h 1).1 ≠ q := by
      rintro rfl
      rw [allocN_fresh h 1 (by decide) hn.1] at hq
      cases hq
    have hq' : (live (allocN h 1).2 q).isSome := by
      rw [allocN_live h 1 (by decide) hn.1, Function.update_of_ne hne.symm]
      exact hq
    obtain ⟨hl, hi⟩ := ih hn.2 hq'
    refine ⟨hl, fun i hin => ?_⟩
    cases i with
    | zero => exact hne
    | succ i => exact hi i (by omega)

/-! ## Runs taken since -/

/-- Since `h` the runs at `ps` were taken, and nothing that was out at `h` was given back. -/
structure Grew (h h' : H) (ps : List ℕ) : Prop where
  /-- What was out is out. -/
  keep : ∀ q b, live h q = some b → live h' q = some b
  /-- The runs are out, and were not. -/
  mine : ∀ p ∈ ps, (live h' p).isSome ∧ live h p = none
  /-- They differ. -/
  nodup : ps.Nodup

theorem Grew.refl (h : H) : Grew h h [] :=
  ⟨fun _ _ hq => hq, fun _ hp => absurd hp List.not_mem_nil, List.nodup_nil⟩

variable {h'' : H} {ps qs : List ℕ}

/-- A request that is met. -/
theorem Grew.alloc (hg : Grew h h' ps) (hn : n < 2 ^ 16) (hp : p ≠ 0)
    (ha : allocN h' n = (p, h'')) : Grew h h'' (p :: ps) := by
  have hl := allocN_live h' n hn (by rw [ha]; exact hp)
  have hf := allocN_fresh h' n hn (by rw [ha]; exact hp)
  rw [ha] at hl hf
  have hne : ∀ q, (live h' q).isSome → q ≠ p := by
    rintro q hq rfl
    rw [hf] at hq
    cases hq
  refine ⟨fun q b hq => ?_, fun q hq => ?_, List.nodup_cons.mpr ⟨fun hq => ?_, hg.nodup⟩⟩
  · have hq' := hg.keep q b hq
    rw [hl, Function.update_of_ne (hne q (by rw [hq']; rfl)), hq']
  · rcases List.mem_cons.mp hq with rfl | hq
    · refine ⟨by rw [hl, Function.update_self]; rfl, ?_⟩
      cases hq : live h q with
      | none => rfl
      | some b =>
        rw [hg.keep q b hq] at hf
        cases hf
    · obtain ⟨h1, h2⟩ := hg.mine q hq
      rw [hl, Function.update_of_ne (hne q h1)]
      exact ⟨h1, h2⟩
  · exact hne p (hg.mine p hq).1 rfl

/-- A request of which nothing is known. -/
theorem Grew.skip (hg : Grew h h' ps) (hn : n < 2 ^ 16) : Grew h (allocN h' n).2 ps := by
  by_cases hp : (allocN h' n).1 = 0
  · have hl := allocN_fail h' n hn hp
    exact ⟨fun q b hq => by rw [hl]; exact hg.keep q b hq, fun q hq => by
      rw [hl]
      exact hg.mine q hq, hg.nodup⟩
  · have := hg.alloc hn hp rfl
    exact ⟨this.keep, fun q hq => this.mine q (List.mem_cons_of_mem _ hq), hg.nodup⟩

/-- Giving one of the new runs back. -/
theorem Grew.free (hg : Grew h h' (p :: ps)) : Grew h (PageAlloc.free h' p) ps := by
  obtain ⟨hp1, hp2⟩ := hg.mine p List.mem_cons_self
  have hl := free_live h' p hp1
  obtain ⟨hp, hnd⟩ := List.nodup_cons.mp hg.nodup
  refine ⟨fun q b hq => ?_, fun q hq => ?_, hnd⟩
  · have hqp : q ≠ p := by
      rintro rfl
      rw [hp2] at hq
      cases hq
    rw [hl, Function.update_of_ne hqp]
    exact hg.keep q b hq
  · have hqp : q ≠ p := fun he => hp (he ▸ hq)
    rw [hl, Function.update_of_ne hqp]
    exact hg.mine q (List.mem_cons_of_mem _ hq)

theorem Grew.freeAll (hg : Grew h h' (qs ++ ps)) : Grew h (qs.foldl PageAlloc.free h') ps := by
  induction qs generalizing h' with
  | nil => exact hg
  | cons q qs ih => exact ih hg.free

/-- A request that may not be met; the null pointer is no run. -/
theorem Grew.allocOr (hg : Grew h h' ps) (hn : n < 2 ^ 16) :
    Grew h (allocN h' n).2 ([(allocN h' n).1].filter (· ≠ 0) ++ ps) := by
  by_cases hp : (allocN h' n).1 = 0
  · rw [hp]
    exact hg.skip hn
  · rw [List.filter_cons_of_pos (by simpa using hp)]
    exact hg.alloc hn hp rfl

/-- Giving runs back of which some may be the null pointer. -/
theorem Grew.freeNonzero (hg : Grew h h' (qs.filter (· ≠ 0) ++ ps)) :
    Grew h (qs.foldl PageAlloc.free h') ps := by
  induction qs generalizing h' with
  | nil => exact hg
  | cons q qs ih =>
    refine ih ?_
    by_cases hq : q = 0
    · subst hq
      rw [free_zero]
      exact hg
    · rw [List.filter_cons_of_pos (by simpa using hq)] at hg
      exact hg.free

theorem Grew.perm (hg : Grew h h' ps) (hp : ps.Perm qs) : Grew h h' qs :=
  ⟨hg.keep, fun q hq => hg.mine q (hp.mem_iff.mpr hq), hp.nodup_iff.mp hg.nodup⟩

/-- Pages taken one after the other. -/
theorem Grew.takePages : ∀ {n : ℕ} {h' : H} {ps : List ℕ}, Grew h h' ps → HasPages h' n →
    Grew h (takePages h' n) ((List.range n).map (pageAt h') ++ ps) := by
  intro n
  induction n with
  | zero => exact fun hg _ => hg
  | succ n ih =>
    intro h' ps hg hn
    have := ih (hg.alloc (by decide) hn.1 rfl) hn.2
    rw [List.range_succ_eq_map, List.map_cons, List.map_map, List.cons_append]
    exact this.perm List.perm_middle

theorem Grew.takePages_skip : ∀ {n : ℕ} {h' : H}, Grew h h' ps →
    Grew h (Pages.takePages h' n) ps := by
  intro n
  induction n with
  | zero => exact fun hg => hg
  | succ n ih => exact fun hg => ih (hg.skip (by decide))

/-- Name the second component of a pair whose first is known. -/
theorem eq_pair {α β : Type} {x : α × β} {a : α} (h : x.1 = a) : x = (a, x.2) := by
  rw [← h]

/-! ## An allocator that is watched -/

/-- An allocator with a record of every run that was given back, and whether it was out then. -/
structure Audit (H : Type) where
  heap : H
  log : List (ℕ × Bool)

/-- Giving the null pointer back is nothing to record. -/
instance instPageAllocAudit : PageAlloc (Audit H) where
  allocN h n := ((allocN h.heap n).1, { h with heap := (allocN h.heap n).2 })
  free h p :=
    if p = 0 then h else ⟨PageAlloc.free h.heap p, h.log ++ [(p, (live h.heap p).isSome)]⟩
  live h := live h.heap
  live_zero h := live_zero h.heap
  allocN_fail h := allocN_fail h.heap
  allocN_live h := allocN_live h.heap
  allocN_fresh h := allocN_fresh h.heap
  allocN_apart h := allocN_apart h.heap
  allocN_dvd h := allocN_dvd h.heap
  allocN_le h := allocN_le h.heap
  free_zero _ := if_pos rfl
  free_live h p hp := by
    have h0 : p ≠ 0 := by
      rintro rfl
      rw [live_zero] at hp
      cases hp
    rw [if_neg h0]
    exact free_live h.heap p hp

/-- Since `h` exactly the runs at `ps` were given back, in this order, and each of them was out. -/
def Gave (h h' : Audit H) (ps : List ℕ) : Prop := h'.log = h.log ++ ps.map fun p => (p, true)

section

variable {h h' h'' : Audit H} {ps qs : List ℕ}

omit [PageAlloc H] in
theorem Gave.refl (h : Audit H) : Gave h h [] := (List.append_nil _).symm

omit [PageAlloc H] in
theorem Gave.trans (h₁ : Gave h h' ps) (h₂ : Gave h' h'' qs) : Gave h h'' (ps ++ qs) := by
  rw [Gave, h₂, h₁, List.map_append, List.append_assoc]

theorem Gave.alloc (hg : Gave h h' ps) (n : ℕ) : Gave h (allocN h' n).2 ps := hg

theorem Gave.takePages (n : ℕ) (hg : Gave h h' ps) : Gave h (Pages.takePages h' n) ps := by
  induction n generalizing h' with
  | zero => exact hg
  | succ n ih => exact ih (hg.alloc 1)

theorem Gave.free (hg : Gave h h' ps) (hp : (live h' p).isSome) :
    Gave h (PageAlloc.free h' p) (ps ++ [p]) := by
  have h0 : p ≠ 0 := by
    rintro rfl
    rw [live_zero] at hp
    cases hp
  refine hg.trans (?_ : _ = _)
  change (if p = 0 then h' else (⟨_, h'.log ++ [(p, (live h'.heap p).isSome)]⟩ : Audit H)).log = _
  rw [if_neg h0, show (live h'.heap p).isSome = true from hp]
  rfl

/-- Runs that are out are given back, each once. -/
theorem Gave.freeAll (hg : Gave h h' ps) (hnd : qs.Nodup) (hq : ∀ q ∈ qs, (live h' q).isSome) :
    Gave h (qs.foldl PageAlloc.free h') (ps ++ qs) := by
  induction qs generalizing h' ps with
  | nil => rwa [List.append_nil]
  | cons q qs ih =>
    obtain ⟨hqs, hnd'⟩ := List.nodup_cons.mp hnd
    have hlive := hq q List.mem_cons_self
    have := ih (hg.free hlive) hnd' fun r hr => by
      have hrq : r ≠ q := fun he => hqs (he ▸ hr)
      rw [free_live h' q hlive, Function.update_of_ne hrq]
      exact hq r (List.mem_cons_of_mem _ hr)
    rwa [List.append_assoc] at this

/-- Runs taken since are given back, where some may be the null pointer. -/
theorem Gave.freeNonzero {rs : List ℕ} (hg : Gave h h' ps)
    (hgrew : Grew h h' (qs.filter (· ≠ 0) ++ rs)) :
    Gave h (qs.foldl PageAlloc.free h') (ps ++ qs.filter (· ≠ 0)) := by
  induction qs generalizing h' ps with
  | nil => rwa [List.filter_nil, List.append_nil]
  | cons q qs ih =>
    by_cases hq : q = 0
    · subst hq
      rw [List.foldl_cons, free_zero]
      exact ih hg hgrew
    · rw [List.filter_cons_of_pos (by simpa using hq)] at hgrew ⊢
      have := ih (hg.free (hgrew.mine q List.mem_cons_self).1) hgrew.free
      rwa [List.append_assoc] at this

end

/-! ## An allocator that never reuses -/

/-- Runs are taken from a counter and kept apart by one page. On an empty region this is what a
first fit does that keeps a header below each run, for as long as nothing is given back. -/
structure Bump where
  next : ℕ
  limit : ℕ
  live : ℕ → Option ℕ
  dvd : 4096 ∣ next
  pos : 0 < next
  limit_lt : limit < 2 ^ 32
  below : ∀ q b, live q = some b → 0 < q ∧ q < next ∧ q + b ≤ next

namespace Bump

/-- All pages from `next` to `limit`. -/
def fresh (next limit : ℕ) (hd : 4096 ∣ next) (hp : 0 < next) (hl : limit < 2 ^ 32) : Bump :=
  ⟨next, limit, fun _ => none, hd, hp, hl, fun _ _ h => (by cases h)⟩

def allocN (h : Bump) (n : ℕ) : ℕ × Bump :=
  if h.next + n * 4096 < h.limit then
    (h.next, { h with
      next := h.next + n * 4096 + 4096
      live := Function.update h.live h.next (some (n * 4096))
      dvd := by
        have := h.dvd
        omega
      pos := by omega
      below := fun q b hq => by
        have hpos := h.pos
        by_cases he : q = h.next
        · subst he
          rw [Function.update_self, Option.some.injEq] at hq
          omega
        · rw [Function.update_of_ne he] at hq
          have := h.below q b hq
          omega })
  else (0, h)

def free (h : Bump) (p : ℕ) : Bump :=
  { h with
    live := Function.update h.live p none
    below := fun q b hq => by
      by_cases he : q = p
      · subst he
        rw [Function.update_self] at hq
        cases hq
      · rw [Function.update_of_ne he] at hq
        exact h.below q b hq }

theorem live_zero (h : Bump) : h.live 0 = none := by
  cases hl : h.live 0 with
  | none => rfl
  | some b =>
    have := h.below _ _ hl
    omega

theorem live_next (h : Bump) : h.live h.next = none := by
  cases hl : h.live h.next with
  | none => rfl
  | some b =>
    have := h.below _ _ hl
    omega

/-- A request is met with the next pages, or not at all. -/
theorem allocN_cases (h : Bump) (n : ℕ) : h.allocN n = (0, h) ∨
    h.next + n * 4096 < h.limit ∧ (h.allocN n).1 = h.next ∧
      (h.allocN n).2.live = Function.update h.live h.next (some (n * 4096)) := by
  rw [allocN]
  split
  · next hlt => exact Or.inr ⟨hlt, rfl, rfl⟩
  · exact Or.inl rfl

end Bump

instance : PageAlloc Bump where
  allocN := Bump.allocN
  free := Bump.free
  live := Bump.live
  live_zero := Bump.live_zero
  allocN_fail h n _ h0 := by
    rcases h.allocN_cases n with he | ⟨-, he, -⟩
    · rw [he]
    · exact absurd (he.symm.trans h0) h.pos.ne'
  allocN_live h n _ h0 := by
    rcases h.allocN_cases n with he | ⟨-, he, hl⟩
    · rw [he] at h0
      exact absurd rfl h0
    · rw [hl, he]
  allocN_fresh h n _ h0 := by
    rcases h.allocN_cases n with he | ⟨-, he, -⟩
    · rw [he] at h0
      exact absurd rfl h0
    · rw [he, h.live_next]
  allocN_apart h n _ h0 q b hq := by
    rcases h.allocN_cases n with he | ⟨-, he, -⟩
    · rw [he] at h0
      exact absurd rfl h0
    · rw [he]
      exact Or.inl (h.below q b hq).2.2
  allocN_dvd h n _ := by
    rcases h.allocN_cases n with he | ⟨-, he, -⟩
    · rw [he]
      exact Nat.dvd_zero _
    · exact he ▸ h.dvd
  allocN_le h n _ h0 := by
    rcases h.allocN_cases n with he | ⟨hlt, he, -⟩
    · rw [he] at h0
      exact absurd rfl h0
    · rw [he]
      exact hlt.trans h.limit_lt
  free_zero h := by
    have hl : Function.update h.live 0 none = h.live := by
      rw [← h.live_zero, Function.update_eq_self]
    simp only [Bump.free, hl]
  free_live h p _ := rfl

end Pages

end Aurisys
