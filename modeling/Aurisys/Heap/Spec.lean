import Aurisys.Heap.Chain

/-!
# What the heap operations do

`Rep lo hi h bs` says that the heap `h` over `[lo, hi)` is the block list `bs`: the headers form a
chain from `g_head`, the blocks tile the region, and free blocks never touch. Each operation then
takes a represented heap to a represented heap, and what it did to the used blocks is one of two
relations: `Allocated` adds a used block, `Released` removes one.

## Main results

* `findFitFrom_spec`, `frameWalk_takes` — the two walks end, with the block they look for if any
* `Rep.kmalloc`, `Rep.kcalloc`, `Rep.kfree`, `Rep.krealloc`, `Rep.kframeAllocN`
-/

namespace Aurisys

open Bytes Blocks

namespace Heap

/-- The heap is the block list `bs` over the region `[lo, hi)`. -/
structure Rep (lo hi : ℕ) (h : Heap) (bs : List Block) : Prop where
  gStart : h.gStart = lo
  gEnd : h.gEnd = hi
  /-- The first block is at the start of the region. -/
  gHead : h.gHead = lo
  /-- The region is aligned. -/
  dvd : 16 ∣ lo
  /-- Zero is no address of a block. -/
  pos : 0 < lo
  /-- The region is not empty. -/
  lt : lo < hi
  /-- Addresses are words. -/
  hi_lt : hi < 2 ^ 32
  /-- No size has the highest bit. -/
  region : hi - lo < 2 ^ 31
  /-- The blocks fill the region. -/
  tiles : Tiles 16 32 lo hi bs
  /-- No two neighbours are free. -/
  coalesced : Coalesced bs
  /-- The headers hold the list. -/
  chain : Chain h 0 0 bs

/-- The used blocks of `bs'` are those of `bs` and a new one that holds `n` bytes at `p`. -/
def Allocated (bs bs' : List Block) (p n : ℕ) : Prop :=
  ∃ c ∈ bs', c.used = true ∧ p = c.addr + 16 ∧ n + 16 ≤ c.size ∧
    (∀ d ∈ bs, d.used = true → d.addr ≠ c.addr) ∧
    ∀ d : Block, d.used = true → (d ∈ bs' ↔ d ∈ bs ∨ d = c)

/-- The used blocks of `bs'` are those of `bs` but the one whose payload is at `p`. -/
def Released (bs bs' : List Block) (p : ℕ) : Prop :=
  ∃ c ∈ bs, c.used = true ∧ p = c.addr + 16 ∧
    ∀ d : Block, d.used = true → (d ∈ bs' ↔ d ∈ bs ∧ d ≠ c)

section

variable {lo hi : ℕ} {h : Heap} {bs pre post : List Block} {b : Block}

theorem Rep.placed (hr : Rep lo hi h (pre ++ b :: post)) : Placed lo hi pre b post :=
  ⟨hr.tiles, hr.dvd, hr.pos, hr.hi_lt, hr.region⟩

theorem Rep.header {p n : ℕ} (hr : Rep lo hi h bs) (hb : b ∈ bs) (hd : Header h b p n) :
    h.bsize b.addr = b.size ∧ h.inUse b.addr = b.used ∧ b.addr ≠ 0 := by
  obtain ⟨h1, h2, -, h4⟩ := hr.tiles.bounds b hb
  have h5 := hr.region
  have h6 := hr.pos
  exact ⟨hd.bsize_eq (by omega) (by omega), hd.inUse_eq (by omega), by omega⟩

theorem Rep.headAddr (hr : Rep lo hi h bs) : headAddr bs 0 = lo := by
  cases bs with
  | nil => exact absurd hr.tiles (Nat.ne_of_lt hr.lt)
  | cons b bs => exact hr.tiles.1

theorem Rep.length_lt (hr : Rep lo hi h bs) : bs.length < 2 ^ 32 := by
  have h1 := hr.tiles.length_mul_le
  have h2 := hr.region
  omega

/-- Assemble a representation from the new chain; the region never changes. -/
theorem Rep.update {h' : Heap} {bs' : List Block} (hr : Rep lo hi h bs)
    (hs : h'.gStart = h.gStart) (he : h'.gEnd = h.gEnd) (hh : h'.gHead = h.gHead)
    (ht : Tiles 16 32 lo hi bs') (hco : Coalesced bs') (hc : Chain h' 0 0 bs') :
    Rep lo hi h' bs' :=
  ⟨hs.trans hr.gStart, he.trans hr.gEnd, hh.trans hr.gHead, hr.dvd, hr.pos, hr.lt, hr.hi_lt,
    hr.region, ht, hco, hc⟩

/-! ## The globals no header write touches -/

/-- `h'` differs from `h` in its memory and counters only. -/
structure SameRegion (h h' : Heap) : Prop where
  gStart : h'.gStart = h.gStart
  gEnd : h'.gEnd = h.gEnd
  gHead : h'.gHead = h.gHead

theorem SameRegion.refl (h : Heap) : SameRegion h h := ⟨rfl, rfl, rfl⟩

theorem SameRegion.trans {h h' h'' : Heap} (h1 : SameRegion h h') (h2 : SameRegion h' h'') :
    SameRegion h h'' :=
  ⟨h2.gStart.trans h1.gStart, h2.gEnd.trans h1.gEnd, h2.gHead.trans h1.gHead⟩

theorem sameRegion_setSize (h : Heap) (a v : ℕ) : SameRegion h (h.setSize a v) :=
  ⟨rfl, rfl, rfl⟩

theorem sameRegion_setPrevSize (h : Heap) (a v : ℕ) : SameRegion h (h.setPrevSize a v) :=
  ⟨rfl, rfl, rfl⟩

theorem sameRegion_setNext (h : Heap) (a v : ℕ) : SameRegion h (h.setNext a v) :=
  ⟨rfl, rfl, rfl⟩

theorem sameRegion_setPrev (h : Heap) (a v : ℕ) : SameRegion h (h.setPrev a v) :=
  ⟨rfl, rfl, rfl⟩

theorem sameRegion_addCoalesced (h : Heap) : SameRegion h h.addCoalesced := ⟨rfl, rfl, rfl⟩

theorem sameRegion_addFree (h : Heap) : SameRegion h h.addFree := ⟨rfl, rfl, rfl⟩

theorem sameRegion_addAlloc (h : Heap) : SameRegion h h.addAlloc := ⟨rfl, rfl, rfl⟩

theorem sameRegion_addFrames (h : Heap) (n : ℕ) : SameRegion h (h.addFrames n) := ⟨rfl, rfl, rfl⟩

theorem sameRegion_mark (h : Heap) (a : ℕ) (used : Bool) : SameRegion h (h.mark a used) :=
  sameRegion_setSize _ _ _

theorem sameRegion_setPrevIf (h : Heap) (a v : ℕ) : SameRegion h (h.setPrevIf a v) := by
  rw [setPrevIf]
  split
  · exact SameRegion.refl h
  · exact sameRegion_setPrev _ _ _

theorem sameRegion_putTail (h : Heap) (b tail after total bytes : ℕ) :
    SameRegion h (h.putTail b tail after total bytes) := by
  rw [putTail]
  refine SameRegion.trans ?_ (sameRegion_setPrevIf _ _ _)
  refine SameRegion.trans ?_ (sameRegion_setNext _ _ _)
  refine SameRegion.trans ?_ (sameRegion_setPrev _ _ _)
  refine SameRegion.trans ?_ (sameRegion_setNext _ _ _)
  refine SameRegion.trans ?_ (sameRegion_setSize _ _ _)
  refine SameRegion.trans ?_ (sameRegion_mark _ _ _)
  exact (sameRegion_setSize _ _ _).trans (sameRegion_setPrevSize _ _ _)

theorem sameRegion_split_mark (h : Heap) (b bytes : ℕ) (used : Bool) :
    SameRegion h ((h.split b bytes).mark b used) := by
  refine SameRegion.trans ?_ (sameRegion_mark _ _ _)
  rw [Heap.split]
  split
  · exact SameRegion.refl h
  · exact sameRegion_putTail _ _ _ _ _ _

theorem sameRegion_absorb (h : Heap) (l r : ℕ) : SameRegion h (h.absorb l r) := by
  rw [absorb]
  refine SameRegion.trans ?_ (sameRegion_addCoalesced _)
  refine SameRegion.trans ?_ (sameRegion_setPrevIf _ _ _)
  exact (sameRegion_setSize _ _ _).trans (sameRegion_setNext _ _ _)

theorem sameRegion_joinNext (h : Heap) (b : ℕ) : SameRegion h (h.joinNext b) := by
  rw [joinNext]
  split
  · exact SameRegion.refl h
  · exact sameRegion_absorb _ _ _

theorem sameRegion_joinPrev (h : Heap) (b : ℕ) : SameRegion h (h.joinPrev b) := by
  rw [joinPrev]
  split
  · exact SameRegion.refl h
  · exact sameRegion_absorb _ _ _

theorem Rep.of_sameRegion {h' : Heap} (hr : Rep lo hi h bs) (hs : SameRegion h h')
    (hm : h'.mem = h.mem) : Rep lo hi h' bs :=
  hr.update hs.gStart hs.gEnd hs.gHead hr.tiles hr.coalesced (hr.chain.of_mem_eq hm)

/-! ## Handing out and giving back one block -/

/-- The heap after carving the free block `b` and marking it used. -/
theorem Rep.split_mark (hr : Rep lo hi h (pre ++ b :: post)) (hb : b.used = false) {n : ℕ}
    (hn : 16 ∣ n) (hn32 : 32 ≤ n) (hnb : n ≤ b.size) :
    Rep lo hi ((h.split b.addr n).mark b.addr true) (pre ++ carve 32 b n ++ post) := by
  obtain ⟨h1, h2, h3⟩ := sameRegion_split_mark h b.addr n true
  exact hr.update h1 h2 h3 (hr.tiles.carve hnb hn32 hn) (coalesced_carve hr.coalesced hb)
    (hr.chain.split_mark hr.placed hn hn32 hnb)

/-- The used blocks after carving `c`, a part of the free block `b` behind free blocks `front`. -/
theorem allocated_carve (hr : Rep lo hi h (pre ++ b :: post)) (hb : b.used = false)
    (front : List Block) {c : Block} {n k : ℕ} (hfront : ∀ d ∈ front, d.used = false)
    (hcl : b.addr ≤ c.addr) (hcr : c.addr < b.addr + b.size) (hk : k + 16 ≤ n) (hn : n ≤ c.size) :
    Allocated (pre ++ b :: post) (pre ++ front ++ carve 32 c n ++ post) (c.addr + 16) k := by
  obtain ⟨s, rest, heq, hs, hrest⟩ := carve_eq_cons 32 c n
  refine ⟨⟨c.addr, s, true⟩, by simp [heq], rfl, rfl, ?_, ?_, ?_⟩
  · have := (hs hn).1
    simp only
    omega
  · -- a used block at that address would be `b`, which is free
    intro d hd hu hda
    have h32 := (hr.tiles.bounds d hd).2.2.1
    simp only at hda
    have : d = b := hr.tiles.eq_of_overlap d hd b (by simp) c.addr (by omega) (by omega) hcl hcr
    simp [this, hb] at hu
  · intro d hd
    have hdb : d ≠ b := by rintro rfl; simp [hb] at hd
    have hdr : d ∉ rest := fun hm => by simp [hrest d hm] at hd
    have hdf : d ∉ front := fun hm => by simp [hfront d hm] at hd
    simp [heq, hdb, hdr, hdf, or_assoc, or_comm]

theorem Rep.mark_free (hr : Rep lo hi h (pre ++ b :: post)) :
    Tiles 16 32 lo hi (pre ++ ⟨b.addr, b.size, false⟩ :: post) := by
  obtain ⟨h1, h2, h3, h4⟩ := hr.tiles.around
  exact tiles_around (b := ⟨b.addr, b.size, false⟩) h1 h2 h3 h4

/-- The used blocks after a release. -/
theorem released_join (hr : Rep lo hi h (pre ++ b :: post)) (hb : b.used = true) :
    Released (pre ++ b :: post) (joinLeft pre (joinRight ⟨b.addr, b.size, false⟩ post))
      (b.addr + 16) := by
  refine ⟨b, by simp, hb, rfl, fun d hd => ?_⟩
  obtain ⟨k, post', heq, hsuf, hkeep, -⟩ := joinRight_eq_cons ⟨b.addr, b.size, false⟩ post
  rw [heq, mem_joinLeft_used rfl hd]
  have hpost : d ∈ post' ↔ d ∈ post := ⟨fun hm => hsuf.subset hm, fun hm => hkeep d hm hd⟩
  have hdisj : d ∈ pre ∨ d ∈ post → d ≠ b := by
    rintro hm rfl
    have h32 := hr.placed.addr
    rcases hm with hm | hm
    · have := hr.placed.left hm; omega
    · have := hr.placed.right hm; omega
  rw [hpost]
  constructor
  · intro hm
    exact ⟨by rcases hm with hm | hm <;> simp [hm], hdisj hm⟩
  · rintro ⟨hm, hne⟩
    simpa [hne] using hm

theorem kfree_eq {b p n : ℕ} {c : Block} (hd : Header h c p n) (hb : c.addr = b)
    (hin : h.inUse b = true) :
    h.kfree (b + 16) = (((h.mark b false).addFree).joinNext b).joinPrev b := by
  have hours : h.ours b = true := hb ▸ hd.ours
  have hcond : ¬(!h.ours b || !h.inUse b) = true := by rw [hours, hin]; simp
  rw [Heap.kfree, if_neg (by omega), headerBytes, Nat.add_sub_cancel]
  exact if_neg hcond

/-- **Giving a used block back.** -/
theorem Rep.kfree (hr : Rep lo hi h (pre ++ b :: post)) (hb : b.used = true) :
    ∃ bs', Rep lo hi (h.kfree (b.addr + 16)) bs' ∧
      Released (pre ++ b :: post) bs' (b.addr + 16) := by
  obtain ⟨-, hhd, -⟩ := hr.chain.around
  have hin : h.inUse b.addr = true := (hr.header (by simp) hhd).2.1.trans hb
  obtain ⟨hcpre, hcpost⟩ := (coalesced_around hb).mp hr.coalesced
  have hp : Placed lo hi pre ⟨b.addr, b.size, false⟩ post :=
    ⟨hr.mark_free, hr.dvd, hr.pos, hr.hi_lt, hr.region⟩
  have hc : Chain (h.mark b.addr false).addFree 0 0 (pre ++ ⟨b.addr, b.size, false⟩ :: post) :=
    (hr.chain.mark hr.placed false).of_mem_eq (mem_addFree _)
  refine ⟨_, ?_, released_join hr hb⟩
  rw [kfree_eq hhd rfl hin]
  obtain ⟨e1, e2, e3⟩ := (((sameRegion_mark h b.addr false).trans (sameRegion_addFree _)).trans
    (sameRegion_joinNext _ b.addr)).trans (sameRegion_joinPrev _ b.addr)
  exact hr.update e1 e2 e3 hp.tiles.joinRight.joinLeft (coalesced_release hcpre hcpost)
    (hc.join hp rfl)

/-- Writing into the payload of a used block changes no header. -/
theorem Rep.store (hr : Rep lo hi h bs) {c : Block} (hc : c ∈ bs) (mem : Bytes)
    (hm : ∀ x, (x < c.addr + 16 ∨ c.addr + c.size ≤ x) → mem x = h.mem x) :
    Rep lo hi (h.setMem mem) bs := by
  refine hr.update rfl rfl rfl hr.tiles hr.coalesced (hr.chain.congr fun b hb => ?_)
  -- a header byte inside the payload would put the block inside `c`
  have hag : ∀ i < 16, mem (b.addr + i) = h.mem (b.addr + i) := by
    intro i hi16
    by_contra hne
    have hin : ¬(b.addr + i < c.addr + 16 ∨ c.addr + c.size ≤ b.addr + i) := fun hx => hne (hm _ hx)
    have hbb := hr.tiles.bounds b hb
    have : b = c := hr.tiles.eq_of_overlap b hb c hc (b.addr + i) (by omega) (by omega)
      (by omega) (by omega)
    subst this
    omega
  refine ⟨r32_congr fun i hi4 => hag i (by omega), r32_congr fun i hi4 => ?_,
    r32_congr fun i hi4 => ?_⟩
  · rw [Nat.add_assoc]; exact hag _ (by omega)
  · rw [Nat.add_assoc]; exact hag _ (by omega)

/-! ## The walks -/

/-- The header of the first block still to visit. -/
theorem Rep.header_of_append {todo : List Block} (hr : Rep lo hi h (pre ++ b :: todo)) :
    h.bsize b.addr = b.size ∧ h.inUse b.addr = b.used ∧ b.addr ≠ 0 ∧
      h.next b.addr = Heap.headAddr todo 0 := by
  obtain ⟨-, hhd, -⟩ := hr.chain.around
  obtain ⟨h1, h2, h3⟩ := hr.header (by simp) hhd
  exact ⟨h1, h2, h3, hhd.next⟩

/-- **`find_fit` ends**, at a free block with room or at the end of the list. The induction is on
the blocks not yet visited, `seen` being those behind. -/
theorem findFitFrom_spec (bytes : ℕ) : ∀ (todo seen : List Block) (fuel : ℕ),
    Rep lo hi h (seen ++ todo) → todo.length < fuel →
    (∃ pre b post, seen ++ todo = pre ++ b :: post ∧ b.used = false ∧ bytes ≤ b.size ∧
        h.findFitFrom bytes fuel (headAddr todo 0) = some b.addr) ∨
      (h.findFitFrom bytes fuel (headAddr todo 0) = some 0 ∧
        ∀ b ∈ todo, b.used = false → b.size < bytes) := by
  intro todo
  induction todo with
  | nil =>
    intro seen fuel _ hf
    obtain ⟨fuel, rfl⟩ := Nat.exists_eq_add_of_lt hf
    right
    simp [findFitFrom]
  | cons b todo ih =>
    intro seen fuel hr hf
    obtain ⟨k, rfl⟩ := Nat.exists_eq_add_of_lt hf
    obtain ⟨hsz, hiu, h0, hnx⟩ := hr.header_of_append
    rw [List.length_cons, headAddr_cons, show todo.length + 1 + k + 1 = (todo.length + k + 1) + 1
      by omega, findFitFrom, if_neg h0, hiu, hsz, hnx]
    by_cases hfit : b.used = false ∧ bytes ≤ b.size
    · left
      refine ⟨seen, b, todo, rfl, hfit.1, hfit.2, ?_⟩
      rw [if_pos (by simp [hfit])]
    · have hr' : Rep lo hi h ((seen ++ [b]) ++ todo) := by rwa [List.append_assoc]
      rw [if_neg (by simpa using hfit)]
      rcases ih (seen ++ [b]) (todo.length + k + 1) hr' (by omega) with
        ⟨pre, c, post, heq, hcu, hcs, hres⟩ | ⟨hres, hnone⟩
      · exact Or.inl ⟨pre, c, post, by rw [← heq]; simp, hcu, hcs, hres⟩
      · refine Or.inr ⟨hres, fun c hc hcu => ?_⟩
        rcases List.mem_cons.mp hc with rfl | hc
        · have : ¬bytes ≤ c.size := fun hle => hfit ⟨hcu, hle⟩
          omega
        · exact hnone c hc hcu

theorem Rep.findFit (hr : Rep lo hi h bs) (bytes : ℕ) :
    (∃ pre b post, bs = pre ++ b :: post ∧ b.used = false ∧ bytes ≤ b.size ∧
        h.findFit bytes = some b.addr) ∨
      (h.findFit bytes = some 0 ∧ ∀ b ∈ bs, b.used = false → b.size < bytes) := by
  have := findFitFrom_spec bytes bs [] (2 ^ 32) hr hr.length_lt
  rw [hr.headAddr] at this
  rw [Heap.findFit, hr.gHead]
  exact this

/-! ## kmalloc and kcalloc -/

/-- The block size `kmalloc` and `krealloc` ask for. -/
theorem alignUp_request {size : ℕ} (hs : size ≤ kSizeMax - headerBytes) :
    alignUp (size + headerBytes) kAlign = (size + 31) / 16 * 16 := by
  have h1 : kSizeMax - headerBytes = 0x3FFFFFEF := rfl
  rw [show kAlign = 2 ^ 4 from rfl, alignUp_eq (by rw [headerBytes]; omega) (by omega), headerBytes]
  omega

/-- `kmalloc` returns: the null pointer and the heap it was given, or a new used block. -/
theorem Rep.kmalloc (hr : Rep lo hi h bs) (size : ℕ) :
    h.kmalloc size = some (0, h) ∨
      ∃ p h' bs', h.kmalloc size = some (p, h') ∧ p ≠ 0 ∧ Rep lo hi h' bs' ∧
        Allocated bs bs' p size := by
  rw [Heap.kmalloc]
  generalize hsz : (if size = 0 then 1 else size) = sz
  have hle : size ≤ sz ∧ 0 < sz := by
    by_cases h0 : size = 0
    · rw [if_pos h0] at hsz; omega
    · rw [if_neg h0] at hsz; omega
  simp only
  by_cases hbig : sz > kSizeMax - headerBytes
  · left
    rw [if_pos hbig]
  · rw [if_neg hbig, alignUp_request (by omega)]
    rcases hr.findFit ((sz + 31) / 16 * 16) with ⟨pre, b, post, rfl, hbu, hbs, hres⟩ | ⟨hres, -⟩
    · right
      have h0 := hr.header_of_append.2.2.1
      have hr' := (hr.split_mark hbu (n := (sz + 31) / 16 * 16) (by omega) (by omega)
        hbs).of_sameRegion (sameRegion_addAlloc _) (mem_addAlloc _)
      have hall := allocated_carve hr hbu [] (c := b) (k := size)
        (n := (sz + 31) / 16 * 16) (by simp) (Nat.le_refl _) (by have := hr.placed.addr; omega)
        (by omega) hbs
      rw [List.append_nil] at hall
      refine ⟨b.addr + 16, _, _, ?_, by omega, hr', hall⟩
      rw [hres]
      simp only [Option.bind_eq_bind, Option.bind_some, if_neg h0, headerBytes]
      rfl
    · left
      rw [hres]
      rfl

/-- `kcalloc` returns, and clearing the payload touches no header. -/
theorem Rep.kcalloc (hr : Rep lo hi h bs) (n size : ℕ) :
    h.kcalloc n size = some (0, h) ∨
      ∃ p h' bs', h.kcalloc n size = some (p, h') ∧ p ≠ 0 ∧ Rep lo hi h' bs' ∧
        Allocated bs bs' p (n * size) := by
  rw [Heap.kcalloc]
  by_cases hov : n ≠ 0 ∧ size > 0xFFFFFFFF / n
  · left
    rw [if_pos hov]
  · rw [if_neg hov]
    rcases hr.kmalloc (n * size) with hres | ⟨p, h', bs', hres, hp, hr', hall⟩
    · left
      simp [hres]
    · right
      obtain ⟨c, hc, hcu, rfl, hcs, hrest⟩ := hall
      have hst := hr'.store hc (memset h'.mem (c.addr + 16) 0 (n * size)) fun x hx =>
        memset_of_lt_or_ge (by omega)
      exact ⟨c.addr + 16, _, bs', by simp [hres], hp, hst, ⟨c, hc, hcu, rfl, hcs, hrest⟩⟩

/-! ## Frames -/

/-- Where the first page behind the header of a block starts. -/
def firstPage (b : Block) : ℕ := (b.addr + 16 + 4095) / 4096 * 4096

/-- The page walk takes a free block: its first page is right behind the header, or far enough
behind for what is in front of it to be a block, and there is room from there on. -/
def Takes (b : Block) (want : ℕ) : Prop :=
  (firstPage b = b.addr + 16 ∨ b.addr + 48 ≤ firstPage b) ∧
    firstPage b - 16 + want ≤ b.addr + b.size

/-- The heap with a frame taken from a block. -/
def takeFrame (h : Heap) (pages want : ℕ) (b : Block) : Heap :=
  let a := firstPage b - 16
  let h := if a = b.addr then h else h.putTail b.addr a (h.next b.addr) b.size (a - b.addr)
  (((h.split a want).mark a true).addAlloc).addFrames pages

theorem le_firstPage (b : Block) : b.addr + 16 ≤ firstPage b := by
  rw [firstPage]
  omega

theorem dvd_firstPage (b : Block) : 4096 ∣ firstPage b := ⟨_, Nat.mul_comm _ _⟩

/-- What the page walk makes of a free block: it passes it over, or takes it as it is, or cuts a
piece off its front so that the payload of the rest starts on a page. -/
theorem Rep.pageCut (hr : Rep lo hi h (pre ++ b :: post)) (want : ℕ) :
    (h.pageCut want b.addr = none ∧ ¬Takes b want) ∨
      (firstPage b = b.addr + 16 ∧ h.pageCut want b.addr = some (b.addr, h)) ∨
      (b.addr + 48 ≤ firstPage b ∧ Takes b want ∧ h.pageCut want b.addr = some (firstPage b - 16,
        h.putTail b.addr (firstPage b - 16)
        (h.next b.addr) b.size (firstPage b - 16 - b.addr))) := by
  obtain ⟨ha, hlo, hend, h32, hs16, hs31⟩ := hr.placed.addr
  have hhi := hr.hi_lt
  have hsz := hr.header_of_append.1
  have hand : ∀ x, x &&& (kPage - 1) = x % 4096 := fun x =>
    Nat.and_two_pow_sub_one_eq_mod x 12
  have hfirst : firstPage b = (b.addr + 16 + 4095) / 4096 * 4096 := rfl
  rw [Heap.pageCut, hand, headerBytes, hsz, Takes]
  by_cases hal : (b.addr + 16) % 4096 = 0
  · right; left
    exact ⟨by omega, by rw [if_neg (by omega)]⟩
  · rw [if_pos hal]
    -- on the last page of the address space the aligned payload wraps to zero
    have hup : alignUp (b.addr + 16) kPage
        = (b.addr + 16 + 4095) % 2 ^ 32 / 4096 * 4096 := by
      have := alignDown_eq (v := (b.addr + 16 + 4095) % 2 ^ 32) (k := 12) (by omega) (by omega)
      exact this
    simp only [hup, kAlign, kMinBlock]
    generalize hcut : ((b.addr + 16 + 4095) % 2 ^ 32 / 4096 * 4096 + 2 * 2 ^ 32 - 16 - b.addr)
      % 2 ^ 32 = cut
    by_cases h1 : b.size < cut ∨ b.size - cut < want
    · left
      rw [if_pos h1]
      exact ⟨rfl, by omega⟩
    · rw [if_neg h1]
      have hcut' : cut = firstPage b - 16 - b.addr := by omega
      by_cases h2 : cut < 32
      · left
        rw [if_pos h2]
        exact ⟨rfl, by omega⟩
      · rw [if_neg h2]
        right; right
        refine ⟨by omega, by omega, ?_⟩
        rw [show b.addr + cut = firstPage b - 16 by omega, hcut']

/-- The heap after cutting `cut` bytes off the front of a free block and handing out a frame from
the rest. -/
theorem Rep.cut_frame (hr : Rep lo hi h (pre ++ b :: post)) (hbu : b.used = false)
    {pages want cut : ℕ} (hw : want = pages * 4096 + 16) (hc16 : 16 ∣ cut) (hc32 : 32 ≤ cut)
    (hcw : cut + want ≤ b.size) (hw32 : 32 ≤ want) :
    Rep lo hi
      ((((((h.putTail b.addr (b.addr + cut) (h.next b.addr) b.size cut).split (b.addr + cut)
        want).mark (b.addr + cut) true).addAlloc).addFrames pages))
      (pre ++ ⟨b.addr, cut, false⟩ :: (carve 32 ⟨b.addr + cut, b.size - cut,
        false⟩ want ++ post)) := by
  obtain ⟨ha, hlo, hend, h32, hs16, hs31⟩ := hr.placed.addr
  obtain ⟨htpre, -, -, htpost⟩ := hr.tiles.around
  have hch := hr.chain.putTail hr.placed hc16 (by omega) (by omega)
  have ht : Tiles 16 32 lo hi ((pre ++ [⟨b.addr, cut, false⟩]) ++
      ⟨b.addr + cut, b.size - cut, false⟩ :: post) := by
    rw [List.append_assoc]
    refine tiles_around (b := ⟨b.addr, cut, false⟩) htpre hc32 hc16
      ⟨rfl, by simp only; omega, by simp only; omega, ?_⟩
    change Tiles 16 32 (b.addr + cut + (b.size - cut)) hi post
    rw [show b.addr + cut + (b.size - cut) = b.addr + b.size by omega]
    exact htpost
  have hp : Placed lo hi (pre ++ [⟨b.addr, cut, false⟩]) ⟨b.addr + cut, b.size - cut, false⟩ post :=
    ⟨ht, hr.dvd, hr.pos, hr.hi_lt, hr.region⟩
  have hle : want ≤ b.size - cut := by omega
  have hch' := Chain.split_mark (n := want) hp (by rw [List.append_assoc]; exact hch) (by omega)
    hw32 hle
  have ht' := ht.carve (n := want) hle hw32 (by omega)
  have hco := coalesced_cut_carve (m := 32) (n := want) (l := ⟨b.addr, cut, false⟩)
    (r := ⟨b.addr + cut, b.size - cut, false⟩) hr.coalesced hbu rfl rfl
  simp only [List.append_assoc, List.cons_append, List.nil_append] at hch' ht'
  have hsame := (sameRegion_putTail h b.addr (b.addr + cut) (h.next b.addr) b.size cut).trans
    (sameRegion_split_mark _ (b.addr + cut) want true)
  exact ((hr.update hsame.gStart hsame.gEnd hsame.gHead ht' hco hch').of_sameRegion
    (sameRegion_addAlloc _) (mem_addAlloc _)).of_sameRegion (sameRegion_addFrames _ pages)
    (mem_addFrames _ pages)

/-- **The page walk ends**, at the first block that it takes or at the end of the list. -/
theorem frameWalk_takes (pages : ℕ) {want : ℕ} (hw : 16 ≤ want) :
    ∀ (todo seen : List Block) (fuel : ℕ), Rep lo hi h (seen ++ todo) → todo.length < fuel →
    (h.frameWalk pages want fuel (headAddr todo 0) = some (0, h) ∧
        ∀ b ∈ todo, b.used = false → ¬Takes b want) ∨
      ∃ pre b post, todo = pre ++ b :: post ∧ b.used = false ∧ Takes b want ∧
        h.frameWalk pages want fuel (headAddr todo 0) =
          some (firstPage b, h.takeFrame pages want b) := by
  intro todo
  induction todo with
  | nil =>
    intro seen fuel _ hf
    obtain ⟨fuel, rfl⟩ := Nat.exists_eq_add_of_lt hf
    left
    rw [headAddr_nil, frameWalk, if_pos rfl]
    exact ⟨rfl, by simp⟩
  | cons b todo ih =>
    intro seen fuel hr hf
    obtain ⟨k, rfl⟩ := Nat.exists_eq_add_of_lt hf
    obtain ⟨hsz, hiu, h0, hnx⟩ := hr.header_of_append
    have hr' : Rep lo hi h ((seen ++ [b]) ++ todo) := by rwa [List.append_assoc]
    have hih := ih (seen ++ [b]) (todo.length + k + 1) hr' (by omega)
    -- what the walk finds behind this block, when it passes it over
    have hpass : (b.used = false → ¬Takes b want) →
        (h.frameWalk pages want (todo.length + k + 1) (Heap.headAddr todo 0) = some (0, h) ∧
          ∀ c ∈ b :: todo, c.used = false → ¬Takes c want) ∨
        ∃ pre c post, b :: todo = pre ++ c :: post ∧ c.used = false ∧ Takes c want ∧
          h.frameWalk pages want (todo.length + k + 1) (Heap.headAddr todo 0) =
            some (firstPage c, h.takeFrame pages want c) := by
      intro hb
      rcases hih with ⟨hres, hnone⟩ | ⟨pre, c, post, rfl, hcu, hct, hres⟩
      · exact .inl ⟨hres, List.forall_mem_cons.mpr ⟨hb, hnone⟩⟩
      · exact .inr ⟨b :: pre, c, post, rfl, hcu, hct, hres⟩
    rw [List.length_cons, headAddr_cons, show todo.length + 1 + k + 1 = (todo.length + k + 1) + 1
      by omega, frameWalk, if_neg h0, hiu, hnx]
    cases hbu : b.used with
    | true =>
      rw [if_pos rfl]
      exact hpass fun hf => absurd (hbu.symm.trans hf) (by simp)
    | false =>
      rw [if_neg Bool.false_ne_true]
      have hle := le_firstPage b
      rcases hr.pageCut want with ⟨hc, hno⟩ | ⟨hal, hc⟩ | ⟨hal, htakes, hc⟩ <;> rw [hc]
      · exact hpass fun _ => hno
      · -- the payload starts on a page already
        simp only
        rw [hsz, hnx]
        by_cases hroom : b.size < want
        · rw [if_pos hroom]
          exact hpass fun _ ht => by have := ht.2; omega
        · rw [if_neg hroom]
          right
          refine ⟨[], b, todo, rfl, hbu, ⟨.inl hal, by omega⟩, ?_⟩
          rw [takeFrame, show firstPage b - 16 = b.addr by omega, if_pos rfl, hal, headerBytes]
      · -- the block is cut, and its right part carved
        have ht := htakes.2
        have hroom : ¬(h.putTail b.addr (firstPage b - 16) (h.next b.addr) b.size
            (firstPage b - 16 - b.addr)).bsize (firstPage b - 16) < want := by
          obtain ⟨ha, hlo, hend, -, hs16, hs31⟩ := hr.placed.addr
          have hdvd := dvd_firstPage b
          have hhd := chain_append.mp (hr.chain.putTail hr.placed
            (n := firstPage b - 16 - b.addr) (by omega) (by omega) (by omega))
          have hbs := hhd.2.2.1.bsize_eq (by simp only; omega) (by simp only; omega)
          simp only [show b.addr + (firstPage b - 16 - b.addr) = firstPage b - 16 by omega] at hbs
          omega
        simp only
        rw [if_neg hroom]
        right
        refine ⟨[], b, todo, rfl, hbu, htakes, ?_⟩
        rw [takeFrame, if_neg (by omega), headerBytes, show firstPage b - 16 + 16 = firstPage b
          by omega]

/-- **A frame that is taken** is a new used block that holds the pages. -/
theorem Rep.takeFrame (hr : Rep lo hi h (pre ++ b :: post)) (hbu : b.used = false)
    {pages want : ℕ} (hw : want = pages * 4096 + 16) (hpg : 0 < pages) (ht : Takes b want) :
    ∃ bs', Rep lo hi (h.takeFrame pages want b) bs' ∧
      Allocated (pre ++ b :: post) bs' (firstPage b) (pages * 4096) := by
  have hle := le_firstPage b
  have hroom := ht.2
  have hdvd := dvd_firstPage b
  obtain ⟨ha, hlo, hend, -, hs16, hs31⟩ := hr.placed.addr
  rw [Heap.takeFrame]
  rcases ht.1 with hal | hcut
  · have hfirst : firstPage b - 16 = b.addr := by omega
    simp only [hfirst, if_true]
    have hrep := ((hr.split_mark hbu (n := want) (by omega) (by omega)
      (by omega)).of_sameRegion (sameRegion_addAlloc _) (mem_addAlloc _)).of_sameRegion
      (sameRegion_addFrames _ pages) (mem_addFrames _ pages)
    have hall := allocated_carve hr hbu [] (c := b) (k := pages * 4096)
      (n := want) (by simp) (Nat.le_refl _) (by omega) (by omega) (by omega)
    rw [List.append_nil, ← hal] at hall
    exact ⟨_, hrep, hall⟩
  · obtain ⟨cut, hcut'⟩ := Nat.exists_eq_add_of_le hle
    have hfirst : firstPage b - 16 = b.addr + cut := by omega
    have hcw : cut + want ≤ b.size := by omega
    have hc16 : 16 ∣ cut := by omega
    have hne : ¬b.addr + cut = b.addr := by omega
    have hsub : b.addr + cut - b.addr = cut := Nat.add_sub_cancel_left ..
    have hp : firstPage b = b.addr + cut + 16 := by omega
    clear ht hroom hdvd
    simp only [hfirst, if_neg hne, hsub]
    rw [hp]
    have hall := allocated_carve hr hbu [⟨b.addr, cut, false⟩]
      (c := ⟨b.addr + cut, b.size - cut, false⟩) (k := pages * 4096) (n := want) (by simp)
      (by simp only; omega) (by simp only; omega) (by omega) (by simp only; omega)
    simp only [List.append_assoc, List.cons_append, List.nil_append] at hall
    exact ⟨_, hr.cut_frame hbu hw hc16 (by omega) hcw (by omega), hall⟩

/-- The page walk returns: the null pointer and the heap it was given, or a frame. -/
theorem Rep.kframeAllocN_takes (hr : Rep lo hi h bs) {pages : ℕ} (h0 : pages ≠ 0) :
    (h.kframeAllocN pages = some (0, h) ∧
        ∀ b ∈ bs, b.used = false → ¬Takes b ((pages * 4096 + 16) % 2 ^ 32)) ∨
      ∃ pre b post, bs = pre ++ b :: post ∧ b.used = false ∧
      Takes b ((pages * 4096 + 16) % 2 ^ 32) ∧
        h.kframeAllocN pages =
          some (firstPage b, h.takeFrame pages ((pages * 4096 + 16) % 2 ^ 32) b) := by
  have hwant : 16 ≤ (pages * 4096 + 16) % 2 ^ 32 := by omega
  have hcall : h.kframeAllocN pages =
      h.frameWalk pages ((pages * 4096 + 16) % 2 ^ 32) (2 ^ 32) (Heap.headAddr bs 0) := by
    rw [Heap.kframeAllocN, if_neg h0, kPage, headerBytes, hr.gHead, hr.headAddr]
  rw [hcall]
  generalize (pages * 4096 + 16) % 2 ^ 32 = want at hwant ⊢
  exact frameWalk_takes pages hwant bs [] (2 ^ 32) hr hr.length_lt

/-- `kframe_alloc_n` returns: the null pointer and the heap it was given, or a new used block that
holds the pages and whose payload starts on one. -/
theorem Rep.kframeAllocN (hr : Rep lo hi h bs) {pages : ℕ} (hpg : pages * 4096 + 16 < 2 ^ 32) :
    h.kframeAllocN pages = some (0, h) ∨
      ∃ p h' bs', h.kframeAllocN pages = some (p, h') ∧ p ≠ 0 ∧ 4096 ∣ p ∧ Rep lo hi h' bs' ∧
        Allocated bs bs' p (pages * 4096) := by
  by_cases h0 : pages = 0
  · left
    rw [Heap.kframeAllocN, if_pos h0]
  · rcases hr.kframeAllocN_takes h0 with ⟨hres, -⟩ | ⟨pre, b, post, rfl, hbu, ht, hres⟩
    · exact .inl hres
    · rw [Nat.mod_eq_of_lt hpg] at ht hres
      obtain ⟨bs', hr', hall⟩ := hr.takeFrame hbu rfl (Nat.pos_of_ne_zero h0) ht
      have hle := le_firstPage b
      exact .inr ⟨_, _, bs', hres, by omega, dvd_firstPage b, hr', hall⟩

/-! ## krealloc -/

/-- A block without a successor ends the region. -/
theorem Rep.post_eq_nil (hr : Rep lo hi h (pre ++ b :: post)) (hn : h.next b.addr = 0) :
    post = [] ∧ b.addr + b.size = hi := by
  obtain ⟨-, -, -, hpost⟩ := hr.tiles.around
  have hnx := hr.header_of_append.2.2.2
  have ha := hr.placed.addr
  have hpos := hr.pos
  cases post with
  | nil => exact ⟨rfl, hpost⟩
  | cons c post =>
    have := hpost.1
    rw [hn, headAddr_cons] at hnx
    omega

/-- Growing the last block in place rewrites the header it already has. -/
theorem Rep.grow_last (hr : Rep lo hi h (pre ++ b :: post)) (hb : b.used = true) :
    Rep lo hi (((h.setSize b.addr (b.size ||| kMagic ||| kInUse)).split b.addr b.size).mark
      b.addr true) (pre ++ b :: post) := by
  obtain ⟨ha, hlo, hend, h32, hs16, hs31⟩ := hr.placed.addr
  obtain ⟨-, hhd, -⟩ := hr.chain.around
  have hword : b.size ||| kMagic ||| kInUse = packed b := by
    rw [or_kMagic hs31, or_kInUse (by omega), packed, hb, Bool.toNat_true]
  have hpl : packed b < 2 ^ 32 := by rw [← hhd.size]; exact r32_lt _ _
  -- the size word is the one that was there
  have hch : Chain (h.setSize b.addr (packed b)) 0 0 (pre ++ b :: post) := by
    refine hr.chain.congr fun x hx => ?_
    have hx16 : 16 ∣ x.addr := hr.tiles.dvd_addr hr.dvd x hx
    rw [size_setSize ha hx16, next_setSize ha hx16, prev_setSize ha hx16]
    refine ⟨?_, rfl, rfl⟩
    split
    · next he => rw [Nat.mod_eq_of_lt hpl, he, hhd.size]
    · rfl
  have hbs : (h.setSize b.addr (packed b)).bsize b.addr = b.size :=
    (Chain.around hch).2.1.bsize_eq hs31 (by omega)
  have hmark := hch.mark hr.placed true
  rw [hword, Heap.split, hbs, if_pos (by rw [kMinBlock]; omega)]
  have hsame := (sameRegion_setSize h b.addr (packed b)).trans (sameRegion_mark _ b.addr true)
  have hbt : (⟨b.addr, b.size, true⟩ : Block) = b := by rw [← hb]
  rw [hbt] at hmark
  exact hr.update hsame.gStart hsame.gEnd hsame.gHead hr.tiles hr.coalesced hmark

/-- The heap after the size of the last block has been written again. -/
def growLast (h : Heap) (b : Block) : Heap :=
  ((h.setSize b.addr (b.size ||| kMagic ||| kInUse)).split b.addr b.size).mark b.addr true

/-- The heap after the bytes of one payload have been copied to another and the block has been
freed. -/
def moveTo (h : Heap) (fresh ptr copy : ℕ) : Heap :=
  (h.setMem (memcpy h.mem fresh h.mem ptr copy)).kfree ptr

/-- What `krealloc` of a live pointer to a positive size comes to: it is refused, or the last block
has the room already, or a new block is found and the bytes are copied. -/
theorem Rep.krealloc_cases (hr : Rep lo hi h bs) (hb : b ∈ bs) (hbu : b.used = true) {size : ℕ}
    (hs : size ≠ 0) :
    h.krealloc (b.addr + 16) size = some (0, h) ∨
      (size + 16 ≤ b.size ∧ h.krealloc (b.addr + 16) size = some (b.addr + 16, h.growLast b)) ∨
      ∃ p h₁ bs₁, h.kmalloc size = some (p, h₁) ∧ p ≠ 0 ∧ Rep lo hi h₁ bs₁ ∧
      Allocated bs bs₁ p size ∧
        h.krealloc (b.addr + 16) size =
          some (p, h₁.moveTo p (b.addr + 16) (min size (b.size - 16))) := by
  obtain ⟨pre, post, rfl⟩ := List.append_of_mem hb
  obtain ⟨ha, hlo, hend, h32, hs16, hs31⟩ := hr.placed.addr
  obtain ⟨-, hhd, -⟩ := hr.chain.around
  obtain ⟨hsz, hiu, h0, hnx⟩ := hr.header_of_append
  have hhi := hr.hi_lt
  rw [Heap.krealloc, if_neg (by omega), if_neg hs]
  by_cases hbig : size > kSizeMax - headerBytes
  · left; rw [if_pos hbig]
  rw [if_neg hbig, headerBytes, Nat.add_sub_cancel]
  have hours : ¬(!h.ours b.addr || !h.inUse b.addr) = true := by
    rw [hhd.ours, hiu, hbu]; simp
  have hwant : alignUp (size + 16) kAlign = (size + 31) / 16 * 16 :=
    alignUp_request (by omega)
  have hdown : alignDown b.addr kAlign = b.addr := by
    rw [show kAlign = 2 ^ 4 from rfl, alignDown_eq (by omega) (by omega)]; omega
  simp only [hwant, hdown, hr.gEnd, hsz]
  rw [if_neg hours]
  by_cases hlast : h.next b.addr = 0 ∧ (size + 31) / 16 * 16 ≤ hi - b.addr
  · -- the last block: all the room there is belongs to it already
    obtain ⟨-, hfull⟩ := hr.post_eq_nil hlast.1
    right; left
    rw [if_pos hlast, if_neg (by omega)]
    exact ⟨by omega, rfl⟩
  · rw [if_neg hlast]
    rcases hr.kmalloc size with hres | ⟨p, h₁, bs₁, hres, hp, hr₁, hall⟩
    · left
      rw [hres]
      rfl
    · right; right
      refine ⟨p, h₁, bs₁, hres, hp, hr₁, hall, ?_⟩
      obtain ⟨c, hc, hcu, rfl, hcs, hne, hused⟩ := hall
      have hb₁ : b ∈ bs₁ := (hused b hbu).mpr (Or.inl (by simp))
      obtain ⟨pre₁, post₁, rfl⟩ := List.append_of_mem hb₁
      have hcopy : (if size < b.size - 16 then size else b.size - 16) = min size (b.size - 16) := by
        split <;> omega
      rw [hres]
      simp only [Option.bind_eq_bind, Option.bind_some, if_neg hp, hr₁.header_of_append.1, hcopy]
      rfl

/-- `krealloc` of a live pointer to a positive size returns: the null pointer with the heap it was
given, the same pointer when the block already has the room, or a new block with the old one
released. -/
theorem Rep.krealloc (hr : Rep lo hi h bs) {b : Block} (hb : b ∈ bs) (hbu : b.used = true)
    {size : ℕ} (hs : size ≠ 0) :
    h.krealloc (b.addr + 16) size = some (0, h) ∨
      (∃ h', h.krealloc (b.addr + 16) size = some (b.addr + 16, h') ∧ size + 16 ≤ b.size ∧
        Rep lo hi h' bs) ∨
      ∃ p h' bs₁ bs₂, h.krealloc (b.addr + 16) size = some (p, h') ∧ p ≠ 0 ∧
        Allocated bs bs₁ p size ∧ Tiles 16 32 lo hi bs₁ ∧ Released bs₁ bs₂ (b.addr + 16) ∧
        Rep lo hi h' bs₂ := by
  rcases hr.krealloc_cases hb hbu hs with hres | ⟨hroom, hres⟩ | ⟨p, h₁, bs₁,
    -, hp, hr₁, hall, hres⟩
  · exact .inl hres
  · right; left
    obtain ⟨pre, post, rfl⟩ := List.append_of_mem hb
    exact ⟨_, hres, hroom, hr.grow_last hbu⟩
  · right; right
    obtain ⟨c, hc, hcu, rfl, hcs, hne, hused⟩ := hall
    have hb₁ : b ∈ bs₁ := (hused b hbu).mpr (Or.inl hb)
    obtain ⟨pre₁, post₁, rfl⟩ := List.append_of_mem hb₁
    have hst :=
      hr₁.store hc (memcpy h₁.mem (c.addr + 16) h₁.mem (b.addr + 16) (min size (b.size - 16)))
      fun x hx => memcpy_of_lt_or_ge (by omega)
    obtain ⟨bs₂, hr₂, hrel⟩ := hst.kfree hbu
    exact ⟨c.addr + 16, _, _, bs₂, hres, hp, ⟨c, hc, hcu, rfl, hcs, hne, hused⟩,
      hr₁.tiles, hrel, hr₂⟩

end

end Heap

end Aurisys
