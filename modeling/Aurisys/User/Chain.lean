import Aurisys.Lib.FreeList
import Aurisys.User.Alloc

/-!
# The free list in memory

What the headers of the free blocks mean: `Seg h p bs q` says that the pointers of the blocks `bs`
lead from `p` to `q`, and that each header has the size of its block.

All headers are at multiples of 8, so two of them are the same or have no byte in common.

## Main results

* `findFit_append`, `findPlace_append` — where the walks end
* `Seg.takeBlock`, `Seg.relink` — what is linked afterwards
-/

namespace Aurisys

open Bytes FreeList

namespace UserHeap

variable {h h' : UserHeap} {a b v p q : ℕ}

/-! ## Headers after header writes -/

theorem size_setSize (ha : 8 ∣ a) (hb : 8 ∣ b) :
    (h.setSize a v).size b = if b = a then v % 2 ^ 32 else h.size b :=
  r32_w32_of_dvd (by omega) (by omega)

theorem next_setNext (ha : 8 ∣ a) (hb : 8 ∣ b) :
    (h.setNext a v).next b = if b = a then v % 2 ^ 32 else h.next b := by
  rw [next, next, setNext, setMem, r32_w32_of_dvd (by omega) (by omega)]
  simp only [Nat.add_right_cancel_iff]

theorem size_setNext (ha : 8 ∣ a) (hb : 8 ∣ b) : (h.setNext a v).size b = h.size b :=
  r32_w32_of_disjoint (by omega)

theorem next_setSize (ha : 8 ∣ a) (hb : 8 ∣ b) : (h.setSize a v).next b = h.next b :=
  r32_w32_of_disjoint (by omega)

/-- The headers at `x` say the same in both. -/
def SameAt (h h' : UserHeap) (x : ℕ) : Prop := h'.size x = h.size x ∧ h'.next x = h.next x

theorem SameAt.trans {h₁ h₂ h₃ : UserHeap} {x : ℕ} (h1 : SameAt h₁ h₂ x) (h2 : SameAt h₂ h₃ x) :
    SameAt h₁ h₃ x := ⟨h2.1.trans h1.1, h2.2.trans h1.2⟩

theorem sameAt_setSize (ha : 8 ∣ a) (hb : 8 ∣ b) (hne : b ≠ a) : SameAt h (h.setSize a v) b :=
  ⟨(size_setSize ha hb).trans (if_neg hne), next_setSize ha hb⟩

theorem sameAt_setNext (ha : 8 ∣ a) (hb : 8 ∣ b) (hne : b ≠ a) : SameAt h (h.setNext a v) b :=
  ⟨size_setNext ha hb, (next_setNext ha hb).trans (if_neg hne)⟩

/-! ## Segments of the list -/

/-- The blocks are linked from `p` to `q`. -/
def Seg (h : UserHeap) : ℕ → List Span → ℕ → Prop
  | p, [], q => p = q
  | p, b :: bs, q => p = b.addr ∧ h.size b.addr = b.size ∧ Seg h (h.next b.addr) bs q

variable {bs pre post : List Span} {c : Span}

theorem seg_append : Seg h p (pre ++ post) q ↔ ∃ m, Seg h p pre m ∧ Seg h m post q := by
  induction pre generalizing p with
  | nil => exact ⟨fun hs => ⟨p, rfl, hs⟩, fun ⟨_, hm, hs⟩ => hm ▸ hs⟩
  | cons b bs ih =>
    rw [List.cons_append, Seg, ih]
    constructor
    · rintro ⟨rfl, hsize, m, h1, h2⟩
      exact ⟨m, ⟨rfl, hsize, h1⟩, h2⟩
    · rintro ⟨m, ⟨rfl, hsize, h1⟩, h2⟩
      exact ⟨rfl, hsize, m, h1, h2⟩

theorem Seg.start_lt (hs : Seg h p bs 0) (hfit : ∀ b ∈ bs, b.stop < 2 ^ 32) : p < 2 ^ 32 := by
  cases bs with
  | nil =>
    obtain rfl : p = 0 := hs
    exact Nat.two_pow_pos 32
  | cons b bs =>
    obtain rfl := hs.1
    exact lt_of_le_of_lt (Nat.le_add_right _ _) (hfit b List.mem_cons_self)

/-- A segment is a matter of its headers. -/
theorem Seg.congr (hs : Seg h p bs q) (hsame : ∀ b ∈ bs, SameAt h h' b.addr) : Seg h' p bs q := by
  induction bs generalizing p with
  | nil => exact hs
  | cons b bs ih =>
    rw [List.forall_mem_cons] at hsame
    obtain ⟨hp, hsize, hrest⟩ := hs
    refine ⟨hp, hsame.1.1.trans hsize, ?_⟩
    rw [hsame.1.2]
    exact ih hrest hsame.2

/-- The link behind some blocks. -/
def linkOf (pre : List Span) : Option ℕ := pre.getLast?.map Span.addr

theorem linkOf_concat (pre : List Span) (c : Span) : linkOf (pre ++ [c]) = some c.addr := by
  rw [linkOf, List.getLast?_concat, Option.map_some]

/-- What the link points to. -/
theorem Seg.deref (hs : Seg h h.gFree pre q) : h.deref (linkOf pre) = q := by
  rcases List.eq_nil_or_concat' pre with rfl | ⟨pre, c, rfl⟩
  · exact hs
  · obtain ⟨m, -, -, -, hq⟩ := seg_append.mp hs
    rw [linkOf_concat]
    exact hq

/-- Writing the link moves the end of the segment, -/
theorem Seg.setLink (hs : Seg h h.gFree pre q) (hv : v < 2 ^ 32) (hal : ∀ b ∈ pre, 8 ∣ b.addr)
    (hnd : (pre.map Span.addr).Nodup) :
    Seg (h.setLink (linkOf pre) v) (h.setLink (linkOf pre) v).gFree pre v := by
  rcases List.eq_nil_or_concat' pre with rfl | ⟨pre, c, rfl⟩
  · rfl
  · rw [linkOf_concat]
    show Seg (h.setNext c.addr v) h.gFree (pre ++ [c]) v
    rw [List.forall_mem_append, List.forall_mem_singleton] at hal
    obtain ⟨hal, hc⟩ := hal
    rw [List.map_append, List.nodup_append] at hnd
    obtain ⟨m, h1, rfl, hsize, -⟩ := seg_append.mp hs
    refine seg_append.mpr ⟨c.addr, h1.congr fun b hb => ?_, rfl, ?_, ?_⟩
    · exact sameAt_setNext hc (hal b hb) (hnd.2.2 _ (List.mem_map_of_mem hb) _ List.mem_cons_self)
    · exact (size_setNext hc hc).trans hsize
    · rw [next_setNext hc hc, if_pos rfl, Nat.mod_eq_of_lt hv]
      rfl

/-- and no other header. -/
theorem sameAt_setLink (hal : ∀ b ∈ pre, 8 ∣ b.addr) (ha : 8 ∣ a) (hne : ∀ b ∈ pre, a ≠ b.addr) :
    SameAt h (h.setLink (linkOf pre) v) a := by
  rcases List.eq_nil_or_concat' pre with rfl | ⟨pre, c, rfl⟩
  · exact ⟨rfl, rfl⟩
  · rw [linkOf_concat]
    have hc : c ∈ pre ++ [c] := List.mem_append_right _ (List.mem_singleton_self c)
    exact sameAt_setNext (hal c hc) ha (hne c hc)

/-! ## The walks -/

/-- The walk of `malloc` passes the blocks that are too small. -/
theorem findFit_append {bytes fuel : ℕ} (done : List Span) (hs : Seg h h.gFree done p)
    (hpre : Seg h p pre q) (hsmall : ∀ b ∈ pre, b.size < bytes) (hnull : ∀ b ∈ pre, b.addr ≠ 0)
    (hq : q = 0 ∨ bytes ≤ h.size q) (hfuel : pre.length < fuel) :
    h.findFit bytes fuel (linkOf done) = some (linkOf (done ++ pre)) := by
  induction pre generalizing fuel done p with
  | nil =>
    obtain rfl : p = q := hpre
    obtain ⟨fuel, rfl⟩ := Nat.exists_eq_add_of_lt hfuel
    rw [List.append_nil, findFit, hs.deref]
    split
    · rfl
    · next hp => exact if_neg (Nat.not_lt.mpr (hq.resolve_left hp))
  | cons b bs ih =>
    obtain ⟨rfl, hsize, hrest⟩ := hpre
    rw [List.forall_mem_cons] at hsmall hnull
    obtain ⟨fuel, rfl⟩ : ∃ f, fuel = f + 1 := ⟨fuel - 1, by rw [List.length_cons] at hfuel; omega⟩
    have hdone : Seg h h.gFree (done ++ [b]) (h.next b.addr) :=
      seg_append.mpr ⟨_, hs, rfl, hsize, rfl⟩
    rw [findFit, hs.deref]
    rw [if_neg hnull.1, hsize, if_pos hsmall.1, ← linkOf_concat done,
      ih _ hdone hrest hsmall.2 hnull.2,
      List.append_assoc, List.singleton_append]
    rw [List.length_cons] at hfuel
    omega

/-- The addresses of the last block and of the one before it; `0` where there is none. -/
def lastTwo (pre : List Span) : ℕ × ℕ :=
  ((pre.dropLast.getLast?.map Span.addr).getD 0, (pre.getLast?.map Span.addr).getD 0)

theorem lastTwo_concat : lastTwo (pre ++ [c]) = ((lastTwo pre).2, c.addr) := by
  rw [lastTwo, List.dropLast_concat, List.getLast?_concat]
  rfl

/-- The walk of `free` passes the blocks below. -/
theorem findPlace_append {fuel : ℕ} (done : List Span) (hpre : Seg h p pre q)
    (hbelow : ∀ s ∈ pre, s.addr < b) (hnull : ∀ s ∈ pre, s.addr ≠ 0) (hq : q = 0 ∨ b ≤ q)
    (hfuel : pre.length < fuel) :
    h.findPlace b fuel (lastTwo done).1 (lastTwo done).2 p =
      some ((lastTwo (done ++ pre)).1, (lastTwo (done ++ pre)).2, q) := by
  induction pre generalizing fuel done p with
  | nil =>
    obtain rfl : p = q := hpre
    obtain ⟨fuel, rfl⟩ := Nat.exists_eq_add_of_lt hfuel
    rw [List.append_nil, findPlace, if_neg]
    omega
  | cons s bs ih =>
    obtain ⟨rfl, hsize, hrest⟩ := hpre
    rw [List.forall_mem_cons] at hbelow hnull
    obtain ⟨fuel, rfl⟩ : ∃ f, fuel = f + 1 := ⟨fuel - 1, by rw [List.length_cons] at hfuel; omega⟩
    have hshort : bs.length < fuel := by
      rw [List.length_cons] at hfuel
      omega
    have hstep := ih (done ++ [s]) hrest hbelow.2 hnull.2 hshort
    rw [lastTwo_concat, List.append_assoc, List.singleton_append] at hstep
    rw [findPlace, if_pos ⟨hnull.1, hbelow.1⟩]
    exact hstep

/-! ## What is written -/

/-- Nothing is written but headers of the blocks in `l`. -/
def Touches (l : List Span) (h h' : UserHeap) : Prop :=
  ∀ a, (∀ s ∈ l, a < s.addr ∨ s.addr + 8 ≤ a) → h'.mem a = h.mem a

variable {l l' : List Span} {h₁ h₂ h₃ : UserHeap}

theorem touches_refl : Touches l h h := fun _ _ => rfl

theorem Touches.trans (h1 : Touches l h₁ h₂) (h2 : Touches l h₂ h₃) : Touches l h₁ h₃ :=
  fun a ha => (h2 a ha).trans (h1 a ha)

theorem Touches.mono (h1 : Touches l h₁ h₂) (hl : ∀ s ∈ l, s ∈ l') : Touches l' h₁ h₂ :=
  fun a ha => h1 a fun s hs => ha s (hl s hs)

theorem touches_setSize (hc : c ∈ l) : Touches l h (h.setSize c.addr v) := by
  intro a ha
  have := ha c hc
  exact w32_of_lt_or_ge (by omega)

theorem touches_setNext (hc : c ∈ l) : Touches l h (h.setNext c.addr v) := by
  intro a ha
  have := ha c hc
  exact w32_of_lt_or_ge (by omega)

theorem touches_setLink (hl : ∀ s ∈ pre, s ∈ l) : Touches l h (h.setLink (linkOf pre) v) := by
  rcases List.eq_nil_or_concat' pre with rfl | ⟨pre, c, rfl⟩
  · exact touches_refl
  · rw [linkOf_concat]
    exact touches_setNext (hl c (List.mem_append_right _ (List.mem_singleton_self c)))

/-- The other headers say what they said. -/
theorem Touches.sameAt (ht : Touches l h h') (hb : 8 ∣ b) (hl : ∀ s ∈ l, 8 ∣ s.addr ∧ s.addr ≠ b) :
    SameAt h h' b := by
  have hbytes : ∀ i < 8, h'.mem (b + i) = h.mem (b + i) := by
    intro i hi
    refine ht _ fun s hs => ?_
    have := hl s hs
    omega
  refine ⟨r32_congr fun i hi => hbytes i (by omega), r32_congr fun i hi => ?_⟩
  rw [Nat.add_assoc]
  exact hbytes (4 + i) (by omega)

/-! ## Handing out -/

/-- The headers around a block are others. -/
theorem nodup_around (hnd : ((pre ++ c :: post).map Span.addr).Nodup) : (pre.map Span.addr).Nodup ∧
    (∀ s ∈ pre, s.addr ≠ c.addr) ∧ (∀ t ∈ post, t.addr ≠ c.addr) ∧
      ∀ s ∈ pre, ∀ t ∈ post, s.addr ≠ t.addr := by
  rw [List.map_append, List.map_cons, List.nodup_append, List.nodup_cons] at hnd
  obtain ⟨hpre, ⟨hc, -⟩, hall⟩ := hnd
  refine ⟨hpre, fun s hs => ?_, fun t ht he => hc (he ▸ List.mem_map_of_mem ht),
    fun s hs t ht => ?_⟩
  · exact hall _ (List.mem_map_of_mem hs) _ List.mem_cons_self
  · exact hall _ (List.mem_map_of_mem hs) _ (List.mem_cons_of_mem _ (List.mem_map_of_mem ht))

/-- **A block leaves the list**, and what is left over of it stays there. -/
theorem Seg.takeBlock {bytes : ℕ} (hs : Seg h h.gFree (pre ++ c :: post) 0)
    (hal : ∀ s ∈ pre ++ c :: post, 8 ∣ s.addr) (hnd : ((pre ++ c :: post).map Span.addr).Nodup)
    (h8 : 8 ∣ bytes) (hpos : 0 < bytes) (hc : bytes ≤ c.size) (hfit : c.stop + 8 < 2 ^ 32)
    (hnew : bytes + 8 ≤ c.size → ∀ s ∈ pre ++ post, s.addr ≠ c.addr + bytes) :
    Seg (h.takeBlock (linkOf pre) bytes) (h.takeBlock (linkOf pre) bytes).gFree
        (pre ++ (cut 8 bytes c).2 ++ post) 0 ∧
      (h.takeBlock (linkOf pre) bytes).size c.addr = (cut 8 bytes c).1.size ∧
      Touches (c :: ((cut 8 bytes c).2 ++ pre)) h (h.takeBlock (linkOf pre) bytes) := by
  obtain ⟨m, h1, rfl, hsize, h2⟩ := seg_append.mp hs
  obtain ⟨hndp, hpc, hqc, hpq⟩ := nodup_around hnd
  rw [List.forall_mem_append, List.forall_mem_cons] at hal
  obtain ⟨halp, halc, halq⟩ := hal
  have hsplit : ((bytes + headerBytes) % 2 ^ 32 ≤ h.size c.addr) ↔ bytes + 8 ≤ c.size := by
    have h9 : bytes + headerBytes = bytes + 8 := rfl
    rw [Span.stop] at hfit
    rw [h9, hsize, Nat.mod_eq_of_lt (by omega)]
  have hnext : h.next c.addr < 2 ^ 32 := r32_lt _ _
  rw [UserHeap.takeBlock, h1.deref, cut]
  dsimp only
  by_cases hbig : bytes + 8 ≤ c.size
  · replace hnew := List.forall_mem_append.mp (hnew hbig)
    have htail : (c.addr + bytes) % 2 ^ 32 = c.addr + bytes := by
      rw [Span.stop] at hfit
      exact Nat.mod_eq_of_lt (by omega)
    have halt : 8 ∣ c.addr + bytes := Nat.dvd_add halc h8
    have hne : c.addr ≠ c.addr + bytes := by omega
    rw [if_pos (hsplit.mpr hbig), if_pos hbig, htail, hsize, next_setSize halt halc]
    set t : Span := ⟨c.addr + bytes, c.size - bytes⟩ with ht
    set k := ((h.setSize t.addr t.size).setNext t.addr (h.next c.addr)).setSize c.addr bytes with hk
    have htouch : Touches [c, t] h k :=
      ((touches_setSize (List.mem_cons_of_mem _ List.mem_cons_self)).trans
        (touches_setNext (List.mem_cons_of_mem _ List.mem_cons_self))).trans
          (touches_setSize List.mem_cons_self)
    have hsame : ∀ s : Span, 8 ∣ s.addr → s.addr ≠ c.addr → s.addr ≠ c.addr + bytes →
        SameAt h k s.addr := by
      intro s hs h3 h4
      refine htouch.sameAt hs ?_
      rw [List.forall_mem_cons, List.forall_mem_singleton]
      exact ⟨⟨halc, h3.symm⟩, halt, h4.symm⟩
    -- the link is written last, and is in none of the headers behind it
    have hpre : Seg k k.gFree pre c.addr :=
      h1.congr fun s hs => hsame s (halp s hs) (hpc s hs) (hnew.1 s hs)
    have hlink : ∀ s : Span, 8 ∣ s.addr → (∀ u ∈ pre, s.addr ≠ u.addr) →
        SameAt k (k.setLink (linkOf pre) t.addr) s.addr := fun s hs hu => sameAt_setLink halp hs hu
    have htc : SameAt k (k.setLink (linkOf pre) t.addr) t.addr :=
      hlink t halt fun u hu => (hnew.1 u hu).symm
    have hcc : SameAt k (k.setLink (linkOf pre) t.addr) c.addr :=
      hlink c halc fun u hu => (hpc u hu).symm
    have hts : k.size t.addr = t.size := by
      rw [hk, size_setSize halc halt, if_neg hne.symm, size_setNext halt halt,
        size_setSize halt halt,
        if_pos rfl]
      rw [Span.stop] at hfit
      exact Nat.mod_eq_of_lt (show c.size - bytes < 2 ^ 32 by omega)
    have htn : k.next t.addr = h.next c.addr := by
      rw [hk, next_setSize halc halt, next_setNext halt halt, if_pos rfl, Nat.mod_eq_of_lt hnext]
    have hcs : k.size c.addr = bytes := by
      rw [hk, size_setSize halc halc, if_pos rfl]
      rw [Span.stop] at hfit
      exact Nat.mod_eq_of_lt (by omega)
    refine ⟨?_, hcc.1.trans hcs, ?_⟩
    · rw [List.append_assoc]
      refine seg_append.mpr ⟨t.addr, hpre.setLink ?_ halp hndp, rfl, htc.1.trans hts, ?_⟩
      · rw [Span.stop] at hfit
        show c.addr + bytes < 2 ^ 32
        omega
      · rw [htc.2, htn]
        refine h2.congr fun s hs => ?_
        exact (hsame s (halq s hs) (hqc s hs) (hnew.2 s hs)).trans
          (hlink s (halq s hs) fun u hu => (hpq u hu s hs).symm)
    · refine (htouch.mono ?_).trans (touches_setLink fun s hs => ?_)
      · rw [List.forall_mem_cons, List.forall_mem_singleton]
        exact ⟨List.mem_cons_self, List.mem_cons_of_mem _ List.mem_cons_self⟩
      · exact List.mem_cons_of_mem _ (List.mem_cons_of_mem _ hs)
  · rw [if_neg (mt hsplit.mp hbig), if_neg hbig]
    refine ⟨?_, ?_, touches_setLink fun s hs => List.mem_cons_of_mem _ hs⟩
    · rw [List.append_nil]
      refine seg_append.mpr ⟨h.next c.addr, h1.setLink hnext halp hndp, h2.congr fun s hs => ?_⟩
      exact sameAt_setLink halp (halq s hs) fun u hu => (hpq u hu s hs).symm
    · exact (sameAt_setLink halp halc fun u hu => (hpc u hu).symm).1.trans hsize

/-! ## Taking back -/

/-- The block swallows the one above it, -/
theorem Seg.joinNext (h2 : Seg h q post 0) (hc : h.size c.addr = c.size)
    (hal : ∀ s ∈ c :: post, 8 ∣ s.addr) (hne : ∀ s ∈ post, s.addr ≠ c.addr)
    (hnull : ∀ s ∈ post, s.addr ≠ 0) (hfit : ∀ s ∈ c :: post, s.stop < 2 ^ 32) :
    Seg (h.joinNext c.addr q).2 (h.joinNext c.addr q).1 (FreeList.joinNext c post).2 0 ∧
      (h.joinNext c.addr q).2.size c.addr = (FreeList.joinNext c post).1.size ∧
      (h.joinNext c.addr q).2.gFree = h.gFree ∧ Touches [c] h (h.joinNext c.addr q).2 := by
  cases post with
  | nil =>
    obtain rfl : q = 0 := h2
    rw [UserHeap.joinNext, if_neg (fun h => h.1 rfl)]
    exact ⟨rfl, hc, rfl, touches_refl⟩
  | cons d ds =>
    obtain ⟨rfl, hsize, h2⟩ := h2
    rw [List.forall_mem_cons, List.forall_mem_cons] at hal hfit
    rw [List.forall_mem_cons] at hne hnull
    have hend : (c.addr + h.size c.addr) % 2 ^ 32 = c.stop := by
      rw [hc]
      exact Nat.mod_eq_of_lt hfit.1
    rw [UserHeap.joinNext, hend, FreeList.joinNext]
    by_cases htouch : c.stop = d.addr
    · rw [if_pos ⟨hnull.1, htouch⟩, if_pos htouch]
      dsimp only
      have hsame : ∀ s : Span, 8 ∣ s.addr → s.addr ≠ c.addr →
          SameAt h (h.setSize c.addr (h.size c.addr + h.size d.addr)) s.addr :=
        fun s hs hn => sameAt_setSize hal.1 hs hn
      refine ⟨?_, ?_, rfl, touches_setSize List.mem_cons_self⟩
      · rw [(hsame d hal.2.1 hne.1).2]
        exact h2.congr fun s hs => hsame s (hal.2.2 s hs) (hne.2 s hs)
      · rw [size_setSize hal.1 hal.1, if_pos rfl, hc, hsize]
        have := hfit.2.1
        rw [Span.stop] at htouch this
        exact Nat.mod_eq_of_lt (by omega)
    · rw [if_neg (fun h => htouch h.2), if_neg htouch]
      exact ⟨⟨rfl, hsize, h2⟩, hc, rfl, touches_refl⟩

/-- and the one below it swallows the block. -/
theorem Seg.joinPrev (h1 : Seg h h.gFree pre q) (hc : h.size c.addr = c.size)
    (hal : ∀ s ∈ pre, 8 ∣ s.addr) (hnd : (pre.map Span.addr).Nodup)
    (hnull : ∀ s ∈ pre, s.addr ≠ 0) (hfit : ∀ s ∈ pre, s.stop < 2 ^ 32) (hcfit : c.stop < 2 ^ 32) :
    ∃ m h', h.joinPrev (lastTwo pre).1 (lastTwo pre).2 c.addr =
        ((lastTwo (FreeList.joinPrev pre c).1).2, (FreeList.joinPrev pre c).2.addr, h') ∧
      Seg h' h'.gFree (FreeList.joinPrev pre c).1 m ∧
      h'.size (FreeList.joinPrev pre c).2.addr = (FreeList.joinPrev pre c).2.size ∧
      Touches [(FreeList.joinPrev pre c).2] h h' := by
  rcases List.eq_nil_or_concat' pre with rfl | ⟨pre, p, rfl⟩
  · refine ⟨q, h, ?_, h1, hc, touches_refl⟩
    exact if_neg fun h => h.1 rfl
  · rw [List.forall_mem_append, List.forall_mem_singleton] at hal hnull hfit
    obtain ⟨m, hpre, rfl, hsize, hlast⟩ := seg_append.mp h1
    have hend : (p.addr + h.size p.addr) % 2 ^ 32 = p.stop := by
      rw [hsize]
      exact Nat.mod_eq_of_lt hfit.2
    rw [lastTwo_concat, UserHeap.joinPrev, hend, FreeList.joinPrev, List.getLast?_concat]
    dsimp only
    by_cases htouch : p.stop = c.addr
    · rw [if_pos ⟨hnull.2, htouch⟩, if_pos htouch, List.dropLast_concat]
      rw [List.map_append, List.nodup_append] at hnd
      refine ⟨p.addr, _, rfl, hpre.congr fun s hs => ?_, ?_, ?_⟩
      · exact sameAt_setSize hal.2 (hal.1 s hs)
          (hnd.2.2 _ (List.mem_map_of_mem hs) _ List.mem_cons_self)
      · rw [size_setSize hal.2 hal.2, if_pos rfl, hc, hsize]
        rw [Span.stop] at htouch hcfit
        exact Nat.mod_eq_of_lt (by omega)
      · exact touches_setSize (c := ⟨p.addr, p.size + c.size⟩) List.mem_cons_self
    · rw [if_neg (fun h => htouch h.2), if_neg htouch]
      refine ⟨q, h, ?_, h1, hc, touches_refl⟩
      rw [lastTwo_concat]

/-- The link behind some blocks, in the words of `free`. -/
theorem setLink_eq (hnull : ∀ s ∈ pre, s.addr ≠ 0) :
    (if (lastTwo pre).2 ≠ 0 then h.setNext (lastTwo pre).2 v else h.setFree v) =
      h.setLink (linkOf pre) v := by
  rcases List.eq_nil_or_concat' pre with rfl | ⟨pre, p, rfl⟩
  · rfl
  · rw [lastTwo_concat, linkOf_concat]
    exact if_pos (hnull p (List.mem_append_right _ (List.mem_singleton_self p)))

/-- **A block comes back to the list**, at its place. -/
theorem Seg.relink (h1 : Seg h h.gFree pre q) (h2 : Seg h q post 0) (hc : h.size c.addr = c.size)
    (hal : ∀ s ∈ pre ++ c :: post, 8 ∣ s.addr) (hnd : ((pre ++ c :: post).map Span.addr).Nodup)
    (hnull : ∀ s ∈ pre ++ c :: post, s.addr ≠ 0) (hfit : ∀ s ∈ pre ++ c :: post, s.stop < 2 ^ 32) :
    Seg (h.relink (lastTwo pre).1 (lastTwo pre).2 q c.addr)
        (h.relink (lastTwo pre).1 (lastTwo pre).2 q c.addr).gFree (place pre c post) 0 ∧
      Touches (pre ++ c :: post) h (h.relink (lastTwo pre).1 (lastTwo pre).2 q c.addr) := by
  obtain ⟨hndp, hpc, hqc, hpq⟩ := nodup_around hnd
  rw [List.forall_mem_append] at hal hnull hfit
  obtain ⟨hA, hsizeA, hfreeA, htA⟩ := h2.joinNext hc hal.2 hqc
    (List.forall_mem_cons.mp hnull.2).2 hfit.2
  rw [List.forall_mem_cons] at hal hnull hfit
  set qA := (h.joinNext c.addr q).1 with hqA
  set hAp := (h.joinNext c.addr q).2 with hhA
  have hsub : ∀ s ∈ (FreeList.joinNext c post).2, s ∈ post := joinNext_subset
  have haddr : (FreeList.joinNext c post).1.addr = c.addr := joinNext_addr
  have hstop : (FreeList.joinNext c post).1.stop < 2 ^ 32 := by
    obtain ⟨s, hs, he⟩ := joinNext_stop c post
    have hall : ∀ s ∈ c :: post, s.stop < 2 ^ 32 := List.forall_mem_cons.mpr hfit.2
    rw [he]
    exact hall s hs
  have hqword : qA < 2 ^ 32 := hA.start_lt fun s hs => hfit.2.2 s (hsub s hs)
  set d := (FreeList.joinNext c post).1 with hd
  set postA := (FreeList.joinNext c post).2 with hpostA
  have hpreA : Seg hAp hAp.gFree pre q := by
    rw [hfreeA]
    refine h1.congr fun s hs => htA.sameAt (hal.1 s hs) ?_
    exact List.forall_mem_singleton.mpr ⟨hal.2.1, (hpc s hs).symm⟩
  obtain ⟨m, hB, hjoin, hpreB, hsizeB, htB⟩ := hpreA.joinPrev (c := d) (by rw [haddr, hsizeA])
    hal.1 hndp hnull.1 hfit.1 hstop
  rw [haddr] at hjoin
  -- the block there is now, and the blocks below it
  obtain ⟨hsubB, hndB, hneB, s, hs, hsB, hqB⟩ : (∀ s ∈ (FreeList.joinPrev pre d).1, s ∈ pre) ∧
      ((FreeList.joinPrev pre d).1.map Span.addr).Nodup ∧
      (∀ s ∈ (FreeList.joinPrev pre d).1, s.addr ≠ (FreeList.joinPrev pre d).2.addr) ∧
      ∃ s ∈ pre ++ c :: post, s.addr = (FreeList.joinPrev pre d).2.addr ∧
        ∀ t ∈ post, t.addr ≠ (FreeList.joinPrev pre d).2.addr := by
    rcases joinPrev_cases pre d with h | ⟨pre', p, rfl, -, h⟩
    · rw [h]
      refine ⟨fun _ h => h, hndp, ?_, c, List.mem_append_right _ List.mem_cons_self, haddr.symm, ?_⟩
      · rw [haddr]
        exact hpc
      · rw [haddr]
        exact hqc
    · rw [h]
      have hp : p ∈ pre' ++ [p] := List.mem_append_right _ (List.mem_singleton_self p)
      rw [List.map_append, List.nodup_append] at hndp
      exact ⟨fun _ h => List.mem_append_left _ h, hndp.1,
        fun s hs => hndp.2.2 _ (List.mem_map_of_mem hs) _ List.mem_cons_self, p,
        List.mem_append_left _ hp, rfl, fun t ht => (hpq p hp t ht).symm⟩
  have hplace : place pre c post =
      (FreeList.joinPrev pre d).1 ++ (FreeList.joinPrev pre d).2 :: postA := rfl
  set preB := (FreeList.joinPrev pre d).1 with hpB
  set e := (FreeList.joinPrev pre d).2 with he
  have hall : ∀ s ∈ pre ++ c :: post, 8 ∣ s.addr ∧ s.addr < 2 ^ 32 := by
    rw [List.forall_mem_append, List.forall_mem_cons]
    have hlt : ∀ s : Span, s.stop < 2 ^ 32 → s.addr < 2 ^ 32 :=
      fun s hs => lt_of_le_of_lt (Nat.le_add_right _ _) hs
    exact ⟨fun s hs => ⟨hal.1 s hs, hlt s (hfit.1 s hs)⟩, ⟨hal.2.1, hlt c hfit.2.1⟩,
      fun s hs => ⟨hal.2.2 s hs, hlt s (hfit.2.2 s hs)⟩⟩
  obtain ⟨h8, hword⟩ := hall s hs
  rw [hsB] at h8 hword
  have halB : ∀ s ∈ preB, 8 ∣ s.addr := fun s hs => hal.1 s (hsubB s hs)
  -- first the pointer of the block is written, then the link to it
  have hpreC : Seg (hB.setNext e.addr qA) (hB.setNext e.addr qA).gFree preB m :=
    hpreB.congr fun s hs => sameAt_setNext h8 (halB s hs) (hneB s hs)
  have hlink : ∀ x, 8 ∣ x → (∀ u ∈ preB, x ≠ u.addr) →
      SameAt (hB.setNext e.addr qA) ((hB.setNext e.addr qA).setLink (linkOf preB) e.addr) x :=
    fun x hx hu => sameAt_setLink halB hx hu
  have heq : h.relink (lastTwo pre).1 (lastTwo pre).2 q c.addr =
      (hB.setNext e.addr qA).setLink (linkOf preB) e.addr := by
    rw [UserHeap.relink]
    dsimp only
    rw [hjoin]
    exact setLink_eq fun s hs => hnull.1 s (hsubB s hs)
  have hesame := hlink e.addr h8 fun u hu => (hneB u hu).symm
  rw [heq, hplace]
  constructor
  · refine seg_append.mpr ⟨e.addr, hpreC.setLink hword halB hndB, rfl, ?_, ?_⟩
    · exact hesame.1.trans ((size_setNext h8 h8).trans hsizeB)
    · rw [hesame.2, next_setNext h8 h8, if_pos rfl, Nat.mod_eq_of_lt hqword]
      refine hA.congr fun t ht => ?_
      have htp := hsub t ht
      have ht8 := hal.2.2 t htp
      have h1 : SameAt hAp hB t.addr :=
        htB.sameAt ht8 (List.forall_mem_singleton.mpr ⟨h8, (hqB t htp).symm⟩)
      exact h1.trans ((sameAt_setNext h8 ht8 (hqB t htp)).trans
        (hlink t.addr ht8 fun u hu => (hpq u (hsubB u hu) t htp).symm))
  · have hc : c ∈ pre ++ c :: post := List.mem_append_right _ List.mem_cons_self
    have hte : ∀ h₁ h₂, Touches [e] h₁ h₂ → Touches (pre ++ c :: post) h₁ h₂ := by
      intro h₁ h₂ ht a ha
      refine ht a (List.forall_mem_singleton.mpr ?_)
      rw [← hsB]
      exact ha s hs
    exact ((htA.mono (List.forall_mem_singleton.mpr hc)).trans (hte _ _ htB)).trans
      ((hte _ _ (touches_setNext List.mem_cons_self)).trans
        (touches_setLink fun u hu => List.mem_append_left _ (hsubB u hu)))

end UserHeap

end Aurisys
