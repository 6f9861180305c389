import Aurisys.Heap.Spec
import Mathlib.Logic.Relation

/-!
# The heap over whole runs

A session is a heap together with what its clients hold: the pointers they were given and have not
given back, each with what was asked for. The clients make any calls in any order, free only what
they hold, and write what they like into the bytes they asked for.

The invariant is that the heap is a block list whose used blocks are exactly the blocks of the held
pointers. One lemma for `Allocated` and one for `Released` keep it, and every call is a composition
of these two.

## Main results

* `heap_safety` — the block list tiles the region, the held payloads lie in it and are disjoint
* `heap_coalesces` — free blocks never touch, and releasing everything leaves one free block
-/

namespace Aurisys

open Bytes Blocks

namespace Heap

/-- What a client asked for. -/
structure Request where
  bytes : ℕ
  /-- Asked of `kframe_alloc_n`. -/
  frame : Bool

/-- A heap, and the pointers its clients hold. -/
structure Session where
  heap : Heap
  live : ℕ → Option Request

/-- One call of a client, or one byte it writes into its own memory. -/
inductive Call where
  | kmalloc (size : ℕ)
  | kcalloc (n size : ℕ)
  | krealloc (ptr size : ℕ)
  | kframeAllocN (pages : ℕ)
  | kfree (ptr : ℕ)
  | kframeFree (frame : ℕ)
  | store (ptr off : ℕ) (v : UInt8)

namespace Session

/-- The calls a client may make: it frees and reallocates what it holds, asks for frames whose
size does not wrap, and writes inside what it asked for. -/
def May (s : Session) : Call → Prop
  | .kmalloc _ => True
  | .kcalloc _ _ => True
  | .krealloc ptr _ => ptr = 0 ∨ (s.live ptr).isSome
  | .kframeAllocN pages => pages * kPage + headerBytes < 2 ^ 32
  | .kfree ptr => (s.live ptr).isSome
  | .kframeFree frame => (s.live frame).isSome
  | .store ptr off _ => ∃ r, s.live ptr = some r ∧ off < r.bytes

/-- The client holds what it was given, when it was given anything. -/
def give (s : Session) (frame : Bool) (bytes : ℕ) (r : ℕ × Heap) : Session :=
  ⟨r.2, if r.1 = 0 then s.live else Function.update s.live r.1 (some ⟨bytes, frame⟩)⟩

def drop (s : Session) (ptr : ℕ) : Session := ⟨s.heap, Function.update s.live ptr none⟩

/-- What `krealloc` leaves the client with: a size of zero frees, a refusal changes nothing, and
otherwise the new pointer replaces the old one. -/
def regive (s : Session) (ptr size : ℕ) (r : ℕ × Heap) : Session :=
  if ptr ≠ 0 ∧ size = 0 then ⟨r.2, Function.update s.live ptr none⟩
  else if r.1 = 0 then ⟨r.2, s.live⟩
  else (s.drop ptr).give false size r

/-- The session after a call; `none` when the call does not return. -/
def call (s : Session) : Call → Option Session
  | .kmalloc size => (s.heap.kmalloc size).map (s.give false size)
  | .kcalloc n size => (s.heap.kcalloc n size).map (s.give false (n * size))
  | .krealloc ptr size => (s.heap.krealloc ptr size).map (s.regive ptr size)
  | .kframeAllocN pages => (s.heap.kframeAllocN pages).map (s.give true (pages * kPage))
  | .kfree ptr => some ⟨s.heap.kfree ptr, (s.drop ptr).live⟩
  | .kframeFree frame => some ⟨s.heap.kframeFree frame, (s.drop frame).live⟩
  | .store ptr off v =>
    some ⟨s.heap.setMem (Function.update s.heap.mem (ptr + off) v), s.live⟩

/-- The pointer that a call for memory returns. -/
def answer (s : Session) : Call → Option ℕ
  | .kmalloc size => (s.heap.kmalloc size).map Prod.fst
  | .kcalloc n size => (s.heap.kcalloc n size).map Prod.fst
  | .krealloc ptr size => (s.heap.krealloc ptr size).map Prod.fst
  | .kframeAllocN pages => (s.heap.kframeAllocN pages).map Prod.fst
  | .kfree _ => none
  | .kframeFree _ => none
  | .store _ _ _ => none

/-- One call that returns. -/
def Step (s s' : Session) : Prop := ∃ c, s.May c ∧ s.call c = some s'

/-- Some calls, one after the other. -/
def Runs : Session → Session → Prop := Relation.ReflTransGen Step

/-- The session on a heap that was just set up. -/
def fresh (mem : Bytes) (lo hi : ℕ) : Session := ⟨format mem lo hi, fun _ => none⟩

/-! ## The invariant -/

/-- The held pointers are the payloads of the used blocks, and each has the room asked for. -/
structure Accounted (bs : List Block) (live : ℕ → Option Request) : Prop where
  /-- Every used block is held. -/
  held : ∀ b ∈ bs, b.used = true → ∃ r, live (b.addr + 16) = some r ∧ r.bytes + 16 ≤ b.size ∧
    (r.frame = true → 4096 ∣ b.addr + 16)
  /-- Every held pointer is the payload of a used block. -/
  block : ∀ p r, live p = some r → ∃ b ∈ bs, b.used = true ∧ p = b.addr + 16

/-- The heap is a block list over `[lo, hi)` whose used blocks are those held. -/
def Inv (lo hi : ℕ) (s : Session) : Prop :=
  ∃ bs, Rep lo hi s.heap bs ∧ Accounted bs s.live

theorem Accounted.allocated {bs bs' : List Block} {live : ℕ → Option Request} {p n : ℕ}
    (ha : Accounted bs live) (hall : Allocated bs bs' p n) {frame : Bool}
    (hf : frame = true → 4096 ∣ p) :
    Accounted bs' (Function.update live p (some ⟨n, frame⟩)) := by
  obtain ⟨c, hc, hcu, rfl, hcs, hne, hused⟩ := hall
  constructor
  · intro b hb hbu
    rcases (hused b hbu).mp hb with hb' | rfl
    · have hba := hne b hb' hbu
      rw [Function.update_of_ne (by omega)]
      exact ha.held b hb' hbu
    · exact ⟨⟨n, frame⟩, by simp, hcs, hf⟩
  · intro q r hq
    by_cases hqp : q = c.addr + 16
    · exact ⟨c, hc, hcu, hqp⟩
    · rw [Function.update_of_ne hqp] at hq
      obtain ⟨b, hb, hbu, hbq⟩ := ha.block q r hq
      exact ⟨b, (hused b hbu).mpr (Or.inl hb), hbu, hbq⟩

/-- A new block is nobody's. -/
theorem Accounted.unheld {bs bs' : List Block} {live : ℕ → Option Request} {p n : ℕ}
    (ha : Accounted bs live) (hall : Allocated bs bs' p n) : live p = none := by
  obtain ⟨c, -, -, rfl, -, hne, -⟩ := hall
  by_contra hheld
  obtain ⟨r, hr⟩ := Option.ne_none_iff_exists'.mp hheld
  obtain ⟨b, hb, hbu, he⟩ := ha.block _ r hr
  exact hne b hb hbu (Nat.add_right_cancel he.symm)

theorem Accounted.released {lo hi : ℕ} {bs bs' : List Block} {live : ℕ → Option Request} {p : ℕ}
    (ha : Accounted bs live) (ht : Tiles 16 32 lo hi bs) (hrel : Released bs bs' p) :
    Accounted bs' (Function.update live p none) := by
  obtain ⟨c, hc, hcu, rfl, hused⟩ := hrel
  constructor
  · intro b hb hbu
    obtain ⟨hb', hbc⟩ := (hused b hbu).mp hb
    have hba : b.addr ≠ c.addr := fun he =>
      hbc (ht.eq_of_addr_eq (by omega) hb' hc he)
    rw [Function.update_of_ne (by omega)]
    exact ha.held b hb' hbu
  · intro q r hq
    by_cases hqp : q = c.addr + 16
    · simp [hqp] at hq
    · rw [Function.update_of_ne hqp] at hq
      obtain ⟨b, hb, hbu, hbq⟩ := ha.block q r hq
      refine ⟨b, (hused b hbu).mpr ⟨hb, ?_⟩, hbu, hbq⟩
      rintro rfl
      exact hqp hbq

/-! ## Every call keeps it -/

section

variable {lo hi : ℕ} {s : Session}

/-- A call that returns null with the heap it was given, or a new block, keeps the invariant. -/
theorem Inv.give (hs : Inv lo hi s) {frame : Bool} {n : ℕ} {res : Option (ℕ × Heap)}
    (hres : ∀ bs, Rep lo hi s.heap bs → res = some (0, s.heap) ∨ ∃ p h' bs', res = some (p, h') ∧
      p ≠ 0 ∧ (frame = true → 4096 ∣ p) ∧ Rep lo hi h' bs' ∧ Allocated bs bs' p n) :
    ∃ s', res.map (s.give frame n) = some s' ∧ Inv lo hi s' := by
  obtain ⟨bs, hr, ha⟩ := hs
  rcases hres bs hr with rfl | ⟨p, h', bs', rfl, hp, hf, hr', hall⟩
  · exact ⟨_, rfl, bs, hr, ha⟩
  · refine ⟨_, rfl, bs', hr', ?_⟩
    simp only [Session.give, if_neg hp]
    exact ha.allocated hall hf

theorem Inv.kfree (hs : Inv lo hi s) {ptr : ℕ} (hp : (s.live ptr).isSome) :
    Inv lo hi ⟨s.heap.kfree ptr, (s.drop ptr).live⟩ := by
  obtain ⟨bs, hr, ha⟩ := hs
  obtain ⟨r, hlive⟩ := Option.isSome_iff_exists.mp hp
  obtain ⟨b, hb, hbu, rfl⟩ := ha.block ptr r hlive
  obtain ⟨pre, post, rfl⟩ := List.append_of_mem hb
  obtain ⟨bs', hr', hrel⟩ := hr.kfree hbu
  exact ⟨bs', hr', ha.released hr.tiles hrel⟩

theorem Inv.kmalloc (hs : Inv lo hi s) (size : ℕ) :
    ∃ s', (s.heap.kmalloc size).map (s.give false size) = some s' ∧ Inv lo hi s' :=
  hs.give fun _ hr => (hr.kmalloc size).imp_right fun ⟨p, h', bs', h1, h2, h3, h4⟩ =>
    ⟨p, h', bs', h1, h2, by simp, h3, h4⟩

theorem live_zero (hs : Inv lo hi s) : s.live 0 = none := by
  obtain ⟨bs, -, ha⟩ := hs
  by_contra hne
  obtain ⟨r, hr⟩ := Option.ne_none_iff_exists'.mp hne
  obtain ⟨b, -, -, h0⟩ := ha.block 0 r hr
  omega

theorem Inv.krealloc (hs : Inv lo hi s) {ptr : ℕ} (size : ℕ)
    (hp : ptr = 0 ∨ (s.live ptr).isSome) :
    ∃ s', (s.heap.krealloc ptr size).map (s.regive ptr size) = some s' ∧ Inv lo hi s' := by
  by_cases h0 : ptr = 0
  · -- no old pointer: a plain kmalloc
    subst h0
    have hdrop : s.drop 0 = s := by
      rw [Session.drop, ← live_zero hs, Function.update_eq_self]
    have hreg : ∀ r, s.regive 0 size r = s.give false size r := by
      intro r
      simp only [regive, ne_eq, not_true_eq_false, false_and, if_false, hdrop]
      by_cases hr : r.1 = 0
      · simp [hr, Session.give]
      · simp [hr]
    rw [show s.regive 0 size = s.give false size from funext hreg, Heap.krealloc, if_pos rfl]
    exact hs.kmalloc size
  · obtain hlive := hp.resolve_left h0
    by_cases hz : size = 0
    · refine ⟨_, by rw [Heap.krealloc, if_neg h0, if_pos hz]; rfl, ?_⟩
      rw [regive, if_pos ⟨h0, hz⟩]
      exact hs.kfree hlive
    · obtain ⟨bs, hr, ha⟩ := hs
      obtain ⟨r, hlr⟩ := Option.isSome_iff_exists.mp hlive
      obtain ⟨b, hb, hbu, rfl⟩ := ha.block ptr r hlr
      rcases hr.krealloc hb hbu hz with hres | ⟨h', hres, hroom, hr'⟩ |
        ⟨p, h', bs₁, bs₂, hres, hp0, hall, ht, hrel, hr'⟩
      · refine ⟨_, by rw [hres]; rfl, bs, ?_, ?_⟩ <;>
          simp only [regive, hz, and_false, if_false, if_true]
        · exact hr
        · exact ha
      · -- the same block, now holding what was asked for last
        refine ⟨_, by rw [hres]; rfl, bs, ?_, ?_⟩ <;>
          simp only [regive, hz, and_false, if_false, h0, Session.give, Session.drop,
            Function.update_idem]
        · exact hr'
        · constructor
          · intro c hc hcu
            by_cases hcb : c.addr = b.addr
            · have : c = b := hr.tiles.eq_of_addr_eq (by omega) hc hb hcb
              subst this
              exact ⟨⟨size, false⟩, by simp, hroom, by simp⟩
            · rw [Function.update_of_ne (by omega)]
              exact ha.held c hc hcu
          · intro q r' hq
            by_cases hqb : q = b.addr + 16
            · exact ⟨b, hb, hbu, hqb⟩
            · rw [Function.update_of_ne hqb] at hq
              exact ha.block q r' hq
      · -- moved: the new block, then the release of the old one
        obtain ⟨c, hc, hcu, rfl, hcs, hne, hused⟩ := hall
        have hcb : b.addr ≠ c.addr := hne b hb hbu
        have hacc : Accounted bs₁ (Function.update s.live (c.addr + 16) (some ⟨size, false⟩)) :=
          ha.allocated ⟨c, hc, hcu, rfl, hcs, hne, hused⟩ (by simp)
        refine ⟨_, by rw [hres]; rfl, bs₂, ?_, ?_⟩ <;>
          simp only [regive, hz, and_false, if_false, if_neg hp0, Session.give, Session.drop]
        · exact hr'
        · rw [Function.update_comm (by omega)]
          exact hacc.released ht hrel

/-- What is handed out was not held. -/
theorem Inv.unheld (hs : Inv lo hi s) {n p : ℕ} {res : Option (ℕ × Heap)}
    (hres : ∀ bs, Rep lo hi s.heap bs → res = some (0, s.heap) ∨
      ∃ q h' bs', res = some (q, h') ∧ Allocated bs bs' q n)
    (hp : res.map Prod.fst = some p) (h0 : p ≠ 0) : s.live p = none := by
  obtain ⟨bs, hr, ha⟩ := hs
  rcases hres bs hr with rfl | ⟨q, h', bs', rfl, hall⟩
  · exact absurd (Option.some.inj hp).symm h0
  · obtain rfl := Option.some.inj hp
    exact ha.unheld hall

/-- Or it is what `krealloc` was given. -/
theorem Inv.krealloc_unheld (hs : Inv lo hi s) {ptr size p : ℕ} (hm : ptr = 0 ∨ (s.live ptr).isSome)
    (hp : (s.heap.krealloc ptr size).map Prod.fst = some p) (h0 : p ≠ 0) :
    s.live p = none ∨ p = ptr := by
  by_cases hptr : ptr = 0
  · rw [Heap.krealloc, if_pos hptr] at hp
    refine .inl (hs.unheld (n := size) (fun _ hr => (hr.kmalloc size).imp_right ?_) hp h0)
    rintro ⟨q, h', bs', h1, -, -, h4⟩
    exact ⟨q, h', bs', h1, h4⟩
  by_cases hz : size = 0
  · rw [Heap.krealloc, if_neg hptr, if_pos hz] at hp
    exact absurd (Option.some.inj hp).symm h0
  obtain ⟨bs, hr, ha⟩ := hs
  obtain ⟨r, hl⟩ := Option.isSome_iff_exists.mp (hm.resolve_left hptr)
  obtain ⟨b, hb, hbu, rfl⟩ := ha.block ptr r hl
  rcases hr.krealloc hb hbu hz with hres | ⟨h', hres, -⟩ | ⟨q, h', bs₁, bs₂, hres, -, hall, -⟩
  · rw [hres] at hp
    exact absurd (Option.some.inj hp).symm h0
  · rw [hres] at hp
    exact .inr (Option.some.inj hp).symm
  · rw [hres] at hp
    obtain rfl := Option.some.inj hp
    exact .inl (ha.unheld hall)

/-- **No pointer is handed out twice**: what a call returns was not held, unless `krealloc` returns
what it was given. -/
theorem Inv.answer_unheld (hs : Inv lo hi s) {c : Call} {p : ℕ} (hm : s.May c)
    (hp : s.answer c = some p)
    (h0 : p ≠ 0) : s.live p = none ∨ ∃ size, c = .krealloc p size := by
  cases c with
  | kmalloc size =>
    refine .inl (hs.unheld (n := size) (fun _ hr => (hr.kmalloc size).imp_right ?_) hp h0)
    rintro ⟨q, h', bs', h1, -, -, h4⟩
    exact ⟨q, h', bs', h1, h4⟩
  | kcalloc n size =>
    refine .inl (hs.unheld (n := n * size) (fun _ hr => (hr.kcalloc n size).imp_right ?_) hp h0)
    rintro ⟨q, h', bs', h1, -, -, h4⟩
    exact ⟨q, h', bs', h1, h4⟩
  | krealloc ptr size =>
    rcases hs.krealloc_unheld hm hp h0 with h | rfl
    · exact .inl h
    · exact .inr ⟨size, rfl⟩
  | kframeAllocN pages =>
    refine .inl (hs.unheld (n := pages * kPage) (fun _ hr => (hr.kframeAllocN hm).imp_right ?_) hp
      h0)
    rintro ⟨q, h', bs', h1, -, -, -, h5⟩
    exact ⟨q, h', bs', h1, h5⟩
  | kfree ptr => cases hp
  | kframeFree frame => cases hp
  | store ptr off v => cases hp

theorem Inv.store (hs : Inv lo hi s) {ptr off : ℕ} {r : Request} (hl : s.live ptr = some r)
    (ho : off < r.bytes) (v : UInt8) :
    Inv lo hi ⟨s.heap.setMem (Function.update s.heap.mem (ptr + off) v), s.live⟩ := by
  obtain ⟨bs, hr, ha⟩ := hs
  obtain ⟨b, hb, hbu, rfl⟩ := ha.block ptr r hl
  obtain ⟨r', hl', hroom, -⟩ := ha.held b hb hbu
  obtain rfl : r = r' := by simpa [hl] using hl'
  refine ⟨bs, hr.store hb _ fun x hx => Function.update_of_ne (by omega) _ _, ha⟩

/-- **Step.** Every call a client may make returns, and keeps the invariant. -/
theorem Inv.call (hs : Inv lo hi s) {c : Call} (hc : s.May c) :
    ∃ s', s.call c = some s' ∧ Inv lo hi s' := by
  cases c with
  | kmalloc size => exact hs.kmalloc size
  | kcalloc n size =>
    exact hs.give fun _ hr => (hr.kcalloc n size).imp_right
      fun ⟨p, h', bs', h1, h2, h3, h4⟩ => ⟨p, h', bs', h1, h2, by simp, h3, h4⟩
  | krealloc ptr size => exact hs.krealloc size hc
  | kframeAllocN pages =>
    exact hs.give fun _ hr => (hr.kframeAllocN hc).imp_right
      fun ⟨p, h', bs', h1, h2, h3, h4, h5⟩ => ⟨p, h', bs', h1, h2, fun _ => h3, h4, h5⟩
  | kfree ptr => exact ⟨_, rfl, hs.kfree hc⟩
  | kframeFree frame => exact ⟨_, rfl, hs.kfree hc⟩
  | store ptr off v =>
    obtain ⟨r, hl, ho⟩ := hc
    exact ⟨_, rfl, hs.store hl ho v⟩

/-- **Run.** The invariant holds after any calls. -/
theorem Inv.runs {s' : Session} (hs : Inv lo hi s) (h : Runs s s') : Inv lo hi s' := by
  induction h with
  | refl => exact hs
  | tail _ hstep ih =>
    obtain ⟨c, hc, hcall⟩ := hstep
    obtain ⟨s'', hcall', hinv⟩ := ih.call hc
    rw [hcall] at hcall'
    exact Option.some.inj hcall' ▸ hinv

end

/-! ## The heap that was just set up -/

/-- A region `heap_init` may set up: aligned, below 4 GiB, not at address zero, with room for a
block and smaller than `2 ^ 31` bytes. -/
structure Region (lo hi : ℕ) : Prop where
  /-- The region begins at a multiple of 16. -/
  lo_dvd : 16 ∣ lo
  /-- It ends at one. -/
  hi_dvd : 16 ∣ hi
  /-- The address `0` is not in it. -/
  pos : 0 < lo
  /-- There is room for a header and a payload. -/
  room : lo + 32 ≤ hi
  /-- The addresses are words. -/
  hi_lt : hi < 2 ^ 32
  /-- No size has the highest bit. -/
  small : hi - lo < 2 ^ 31

theorem rep_format {lo hi : ℕ} (hreg : Region lo hi) (mem : Bytes) :
    Rep lo hi (format mem lo hi) [⟨lo, hi - lo, false⟩] := by
  obtain ⟨h1, h2, h3, h4, h5, h6⟩ := hreg
  have hch : Chain (format mem lo hi) 0 0 [⟨lo, hi - lo, false⟩] := by
    rw [format]
    refine Chain.of_mem_eq (h := Heap.setSize _ lo _) ⟨⟨?_, ?_, ?_⟩, trivial⟩ (mem_setHead _ _)
    · rw [size_setSize h1 h1, if_pos rfl, or_kMagic h6, Nat.mod_eq_of_lt (by omega), packed,
        Bool.toNat_false, Nat.add_zero]
    · rw [next_setSize h1 h1, next_mark h1 h1, next_setPrev h1 h1, next_setNext h1 h1, if_pos rfl,
        headAddr_nil, Nat.zero_mod]
    · rw [prev_setSize h1 h1, prev_mark h1 h1, prev_setPrev h1 h1, if_pos rfl, Nat.zero_mod]
  have ht : Tiles 16 32 lo hi [⟨lo, hi - lo, false⟩] :=
    ⟨rfl, by simp only; omega, by simp only; omega, by simp only [tiles_nil]; omega⟩
  exact ⟨rfl, rfl, rfl, h1, h3, by omega, h5, h6, ht, List.isChain_singleton _, hch⟩

theorem inv_fresh {lo hi : ℕ} (hreg : Region lo hi) (mem : Bytes) :
    Inv lo hi (fresh mem lo hi) :=
  ⟨_, rep_format hreg mem, by simp, by simp [fresh]⟩

/-! ## What holds after any calls -/

/-- `bs` is the block list that starts at `g_head`: linked both ways, in address order, each block
starting where the one before it ends, from `lo` to `hi`. -/
structure IsBlockList (lo hi : ℕ) (h : Heap) (bs : List Block) : Prop where
  /-- The list starts at the first block. -/
  gHead : h.gHead = headAddr bs 0
  /-- Each header names its neighbours. -/
  linked : Chain h 0 0 bs
  /-- The blocks fill the region, without a gap. -/
  tiles : Tiles 16 32 lo hi bs

/-- What the clients rely on. -/
structure Safe (lo hi : ℕ) (s : Session) (bs : List Block) : Prop where
  /-- The list from `g_head` covers the region. -/
  list : IsBlockList lo hi s.heap bs
  gStart : s.heap.gStart = lo
  gEnd : s.heap.gEnd = hi
  /-- Every header carries the magic bit, and the size and use of its block. -/
  header : ∀ b ∈ bs, s.heap.ours b.addr = true ∧ s.heap.bsize b.addr = b.size ∧
    s.heap.inUse b.addr = b.used
  /-- A held payload lies inside exactly one used block, behind its header. -/
  inside : ∀ p r, s.live p = some r → ∃! b, b ∈ bs ∧ b.used = true ∧ b.addr + 16 ≤ p ∧
    p + r.bytes ≤ b.addr + b.size
  /-- A payload is aligned, that of a frame to a page. -/
  aligned : ∀ p r, s.live p = some r → 16 ∣ p ∧ (r.frame = true → 4096 ∣ p)
  /-- No two payloads have a byte in common. -/
  disjoint : ∀ p q r r', s.live p = some r → s.live q = some r' → p ≠ q →
    p + r.bytes ≤ q ∨ q + r'.bytes ≤ p

section

variable {lo hi : ℕ} {s : Session} {bs : List Block}

theorem isBlockList_of_rep {h : Heap} (hr : Rep lo hi h bs) : IsBlockList lo hi h bs :=
  ⟨hr.gHead.trans hr.headAddr.symm, hr.chain, hr.tiles⟩

/-- The block of a held pointer. -/
theorem Accounted.find (ha : Accounted bs s.live) {p : ℕ} {r : Request} (hl : s.live p = some r) :
    ∃ b ∈ bs, b.used = true ∧ p = b.addr + 16 ∧ r.bytes + 16 ≤ b.size ∧
      (r.frame = true → 4096 ∣ p) := by
  obtain ⟨b, hb, hbu, rfl⟩ := ha.block p r hl
  obtain ⟨r', hl', hroom, hfr⟩ := ha.held b hb hbu
  obtain rfl : r = r' := by simpa [hl] using hl'
  exact ⟨b, hb, hbu, rfl, hroom, hfr⟩

theorem safe_of_rep (hr : Rep lo hi s.heap bs) (ha : Accounted bs s.live) : Safe lo hi s bs := by
  refine ⟨isBlockList_of_rep hr, hr.gStart, hr.gEnd, ?_, ?_, ?_, ?_⟩
  · intro b hb
    obtain ⟨pre, post, rfl⟩ := List.append_of_mem hb
    obtain ⟨-, hhd, -⟩ := hr.chain.around
    obtain ⟨h1, h2, -⟩ := hr.header hb hhd
    exact ⟨hhd.ours, h1, h2⟩
  · intro p r hl
    obtain ⟨b, hb, hbu, rfl, hroom, -⟩ := ha.find hl
    refine ⟨b, ⟨hb, hbu, Nat.le_refl _, by omega⟩, ?_⟩
    rintro c ⟨hc, -, hc1, hc2⟩
    have hb32 := hr.tiles.bounds b hb
    have hc32 := hr.tiles.bounds c hc
    by_cases hca : b.addr < c.addr + c.size
    · exact (hr.tiles.eq_of_overlap b hb c hc b.addr (by omega) (by omega) (by omega) hca).symm
    · omega
  · intro p r hl
    obtain ⟨b, hb, -, rfl, -, hfr⟩ := ha.find hl
    have h16 := hr.tiles.dvd_addr hr.dvd b hb
    exact ⟨by omega, hfr⟩
  · intro p q r r' hp hq hne
    obtain ⟨b, hb, hbu, rfl, hroom, -⟩ := ha.find hp
    obtain ⟨c, hc, hcu, rfl, hroom', -⟩ := ha.find hq
    -- blocks at different addresses do not overlap
    by_contra hov
    have hb32 := hr.tiles.bounds b hb
    have hc32 := hr.tiles.bounds c hc
    rcases Nat.lt_or_ge b.addr c.addr with hlt | hge
    · have := hr.tiles.eq_of_overlap b hb c hc c.addr (by omega) (by omega) (by omega) (by omega)
      subst this; omega
    · have := hr.tiles.eq_of_overlap b hb c hc b.addr (by omega) (by omega) (by omega) (by omega)
      subst this; omega

end

end Session

open Session

/-- **Heap safety.** After any calls on a heap of fewer than `2 ^ 31` bytes, the headers form a
block list that tiles the region, every held payload lies in exactly one used block, aligned, with
the room asked for and apart from every other; and the next call returns, with a pointer that was
not held. -/
theorem heap_safety {lo hi : ℕ} (hreg : Region lo hi) (mem : Bytes) {s : Session}
    (hs : Runs (fresh mem lo hi) s) :
    (∃ bs, Safe lo hi s bs) ∧ ∀ c, s.May c → (∃ s', s.call c = some s') ∧
      ∀ p, s.answer c = some p → p ≠ 0 → s.live p = none ∨ ∃ size, c = .krealloc p size := by
  have hinv := (inv_fresh hreg mem).runs hs
  obtain ⟨bs, hr, ha⟩ := hinv
  refine ⟨⟨bs, safe_of_rep hr ha⟩, fun c hc => ⟨?_, fun p => Inv.answer_unheld ⟨bs, hr, ha⟩ hc⟩⟩
  obtain ⟨s', hcall, -⟩ := Inv.call ⟨bs, hr, ha⟩ hc
  exact ⟨s', hcall⟩

/-- Ten bytes from a heap of three pages. -/
theorem kmalloc_ten : ((format (fun _ => 0) 4096 16384).kmalloc 10).map Prod.fst = some 4112 := by
  decide +kernel

theorem region_three_pages : Region 4096 16384 :=
  ⟨by decide, by decide, by decide, by decide, by decide, by decide⟩

/-- The session that holds these ten bytes. -/
theorem runs_kmalloc_ten : ∃ s, Runs (fresh (fun _ => 0) 4096 16384) s ∧
    s.live = Function.update (fun _ => none) 4112 (some ⟨10, false⟩) := by
  obtain ⟨r, hr, hr1⟩ := Option.map_eq_some_iff.mp kmalloc_ten
  have hcall : (fresh (fun _ => 0) 4096 16384).call (.kmalloc 10)
      = some ((fresh (fun _ => 0) 4096 16384).give false 10 r) := by
    rw [Session.call, fresh, hr, Option.map_some]
  refine ⟨_, Relation.ReflTransGen.single ⟨.kmalloc 10, trivial, hcall⟩, ?_⟩
  rw [give, hr1, if_neg (by decide)]
  rfl

theorem heap_safety_ten : ∃ s, s.live 4112 = some ⟨10, false⟩ ∧ ∃ bs, Safe 4096 16384 s bs := by
  obtain ⟨s, hs, hlive⟩ := runs_kmalloc_ten
  exact ⟨s, by rw [hlive, Function.update_self],
    (heap_safety region_three_pages (fun _ => 0) hs).1⟩

/-- Give back the pointers of a list, in its order. -/
def Session.freeAll (s : Session) (ptrs : List ℕ) : Option Session :=
  ptrs.foldlM (fun s p => s.call (.kfree p)) s

/-- Giving back everything, in any order, ends in a session that holds nothing. -/
theorem Session.Inv.freeAll {lo hi : ℕ} : ∀ {s : Session} {ptrs : List ℕ}, Inv lo hi s →
    ptrs.Nodup → (∀ p, p ∈ ptrs ↔ (s.live p).isSome) →
    ∃ s', s.freeAll ptrs = some s' ∧ Inv lo hi s' ∧ ∀ p, s'.live p = none := by
  intro s ptrs
  induction ptrs generalizing s with
  | nil =>
    intro hs _ hall
    refine ⟨s, rfl, hs, fun p => ?_⟩
    simpa using hall p
  | cons q ptrs ih =>
    intro hs hnd hall
    obtain ⟨hq, hnd'⟩ := List.nodup_cons.mp hnd
    have hlive : (s.live q).isSome := (hall q).mp (by simp)
    refine ih (s := ⟨s.heap.kfree q, (s.drop q).live⟩) (hs.kfree hlive) hnd' fun p => ?_
    simp only [Session.drop]
    by_cases hpq : p = q
    · subst hpq
      simp [hq]
    · rw [Function.update_of_ne hpq, ← hall p]
      simp [hpq]

/-- **The heap coalesces.** After any calls no two neighbouring blocks are free; and giving back
every held pointer, in whatever order, leaves one free block over the whole region. -/
theorem heap_coalesces {lo hi : ℕ} (hreg : Region lo hi) (mem : Bytes) {s : Session}
    (hs : Runs (fresh mem lo hi) s) :
    (∃ bs, IsBlockList lo hi s.heap bs ∧ Coalesced bs) ∧
      ∀ ptrs : List ℕ, ptrs.Nodup → (∀ p, p ∈ ptrs ↔ (s.live p).isSome) →
        ∃ s', s.freeAll ptrs = some s' ∧ IsBlockList lo hi s'.heap [⟨lo, hi - lo, false⟩] := by
  have hinv := (inv_fresh hreg mem).runs hs
  constructor
  · obtain ⟨bs, hr, -⟩ := hinv
    exact ⟨bs, isBlockList_of_rep hr, hr.coalesced⟩
  · intro ptrs hnd hall
    obtain ⟨s', hfree, ⟨bs, hr, ha⟩, hnone⟩ := hinv.freeAll hnd hall
    refine ⟨s', hfree, ?_⟩
    have hall' : ∀ b ∈ bs, b.used = false := by
      intro b hb
      by_contra hu
      obtain ⟨r, hl, -⟩ := ha.held b hb (by simpa using hu)
      rw [hnone] at hl
      simp at hl
    have := eq_singleton_of_forall_free hr.tiles hr.coalesced hr.lt hall'
    exact this ▸ isBlockList_of_rep hr

theorem heap_coalesces_ten : ∃ s s' : Session, s.live 4112 = some ⟨10, false⟩ ∧
    s.freeAll [4112] = some s' ∧
    IsBlockList 4096 16384 s'.heap [⟨4096, 12288, false⟩] := by
  obtain ⟨s, hs, hlive⟩ := runs_kmalloc_ten
  obtain ⟨s', hfree, hlist⟩ := (heap_coalesces region_three_pages (fun _ => 0) hs).2 [4112]
    (by simp) fun p => by
      by_cases hp : p = 4112
      · simp [hp, hlive]
      · simp [hp, hlive]
  exact ⟨s, s', by rw [hlive, Function.update_self], hfree, hlist⟩

end Heap

end Aurisys
