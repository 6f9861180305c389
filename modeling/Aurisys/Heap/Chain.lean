import Aurisys.Heap.Model
import Aurisys.Lib.Blocks

/-!
# The header chain

What the header words in memory mean: `Chain h p n bs` says that the blocks `bs` are linked one
after the other in the memory of `h`, that the block before them is at `p` and the one after them
at `n`, and that each packed size word carries the block's size, its use and the magic bit.

Every operation of the allocator is a handful of header writes. `putTail`, `mark`, `joinNext` and
`joinPrev` each get one lemma that says what the header words are afterwards, and one that says
what the chain is; nothing above this file looks at a header word again.

## Main results

* `chain_append`, `Chain.congr`, `Chain.reprev` — chains piece by piece
* `Chain.putTail`, `Chain.mark`, `Chain.split_mark` — allocating
* `Chain.joinNext`, `Chain.joinPrev` — releasing
-/

namespace Aurisys

open Bytes Blocks

namespace Heap

/-! ## The packed size word -/

theorem or_kMagic {s : ℕ} (hs : s < 2 ^ 31) : s ||| kMagic = s + 2 ^ 31 := by
  have h := Nat.two_pow_add_eq_or_of_lt hs 1
  rw [Nat.mul_one] at h
  rw [Nat.or_comm, show kMagic = 2 ^ 31 from rfl, ← h, Nat.add_comm]

theorem or_kInUse {s : ℕ} (hs : 2 ∣ s) : s ||| kInUse = s + 1 := by
  obtain ⟨k, rfl⟩ := hs
  have h := Nat.two_pow_add_eq_or_of_lt (i := 1) (b := 1) (by norm_num) k
  simpa [kInUse] using h.symm

theorem and_kSizeMask (w : ℕ) : w &&& kSizeMask = w % 2 ^ 31 / 2 * 2 := by
  apply Nat.eq_of_testBit_eq
  intro i
  rw [show w % 2 ^ 31 / 2 * 2 = (w % 2 ^ 31) >>> 1 <<< 1 by
      simp [Nat.shiftRight_eq_div_pow, Nat.shiftLeft_eq],
    show kSizeMask = (2 ^ 30 - 1) <<< 1 from rfl]
  simp only [Nat.testBit_and, Nat.testBit_shiftLeft, Nat.testBit_shiftRight,
    Nat.testBit_two_pow_sub_one, Nat.testBit_mod_two_pow]
  by_cases hi : 1 ≤ i
  · have h1 : 1 + (i - 1) = i := by omega
    by_cases h2 : i < 31 <;> simp [hi, h1, h2] <;> intro _ <;> omega
  · simp [hi]

theorem alignDown_eq {v k : ℕ} (hv : v < 2 ^ 32) (hk : k ≤ 32) :
    alignDown v (2 ^ k) = v / 2 ^ k * 2 ^ k := by
  rw [alignDown]
  apply Nat.eq_of_testBit_eq
  intro i
  rw [show v / 2 ^ k * 2 ^ k = v >>> k <<< k by
      simp [Nat.shiftRight_eq_div_pow, Nat.shiftLeft_eq],
    show 0xFFFFFFFF = 2 ^ 32 - 1 from rfl]
  simp only [Nat.testBit_and, Nat.testBit_xor, Nat.testBit_shiftLeft, Nat.testBit_shiftRight,
    Nat.testBit_two_pow_sub_one]
  by_cases hi : k ≤ i
  · have h1 : k + (i - k) = i := by omega
    by_cases h2 : i < 32
    · simp [hi, h1, h2]
    · have h3 : v.testBit i = false := Nat.testBit_lt_two_pow
        (lt_of_lt_of_le hv (Nat.pow_le_pow_right (by norm_num) (by omega)))
      simp [hi, h1, h3]
  · have h2 : i < 32 := by omega
    simp [hi, h2]
    omega

theorem alignUp_eq {v k : ℕ} (hv : v + 2 ^ k - 1 < 2 ^ 32) (hk : k ≤ 32) :
    alignUp v (2 ^ k) = (v + 2 ^ k - 1) / 2 ^ k * 2 ^ k := by
  rw [alignUp, Nat.mod_eq_of_lt hv]
  exact alignDown_eq hv hk

theorem bsize_eq (h : Heap) (b : ℕ) : h.bsize b = h.size b % 2 ^ 31 / 2 * 2 := and_kSizeMask _

theorem inUse_eq (h : Heap) (b : ℕ) : h.inUse b = decide (h.size b % 2 = 1) := by
  rw [inUse, kInUse, Nat.and_one_is_mod]
  rcases Nat.mod_two_eq_zero_or_one (h.size b) with e | e <;> rw [e] <;> rfl

theorem ours_eq (h : Heap) (b : ℕ) : h.ours b = decide (2 ^ 31 ≤ h.size b) := by
  have hlt : h.size b < 2 ^ 32 := r32_lt _ _
  rw [ours, show kMagic = 2 ^ 31 from rfl, Nat.and_two_pow]
  by_cases hge : 2 ^ 31 ≤ h.size b
  · have hbit : (h.size b).testBit 31 = true := by
      rw [Nat.testBit_eq_decide_div_mod_eq]
      simp only [decide_eq_true_eq]
      omega
    rw [hbit, decide_eq_true hge]
    rfl
  · rw [Nat.testBit_lt_two_pow (by omega), decide_eq_false hge]
    rfl

/-! ## Header words after header writes

All headers sit at multiples of 16, so two of them are the same or disjoint. -/

variable {h : Heap} {a b v : ℕ}

theorem size_setSize (ha : 16 ∣ a) (hb : 16 ∣ b) :
    (h.setSize a v).size b = if b = a then v % 2 ^ 32 else h.size b :=
  r32_w32_of_dvd (by omega) (by omega)

theorem next_setNext (ha : 16 ∣ a) (hb : 16 ∣ b) :
    (h.setNext a v).next b = if b = a then v % 2 ^ 32 else h.next b := by
  rw [next, next, setNext, r32_w32_of_dvd (by omega) (by omega)]
  simp only [Nat.add_right_cancel_iff]

theorem prev_setPrev (ha : 16 ∣ a) (hb : 16 ∣ b) :
    (h.setPrev a v).prev b = if b = a then v % 2 ^ 32 else h.prev b := by
  rw [prev, prev, setPrev, r32_w32_of_dvd (by omega) (by omega)]
  simp only [Nat.add_right_cancel_iff]

theorem size_setPrevSize (ha : 16 ∣ a) (hb : 16 ∣ b) : (h.setPrevSize a v).size b = h.size b :=
  r32_w32_of_disjoint (by omega)

theorem size_setNext (ha : 16 ∣ a) (hb : 16 ∣ b) : (h.setNext a v).size b = h.size b :=
  r32_w32_of_disjoint (by omega)

theorem size_setPrev (ha : 16 ∣ a) (hb : 16 ∣ b) : (h.setPrev a v).size b = h.size b :=
  r32_w32_of_disjoint (by omega)

theorem next_setSize (ha : 16 ∣ a) (hb : 16 ∣ b) : (h.setSize a v).next b = h.next b :=
  r32_w32_of_disjoint (by omega)

theorem next_setPrevSize (ha : 16 ∣ a) (hb : 16 ∣ b) : (h.setPrevSize a v).next b = h.next b :=
  r32_w32_of_disjoint (by omega)

theorem next_setPrev (ha : 16 ∣ a) (hb : 16 ∣ b) : (h.setPrev a v).next b = h.next b :=
  r32_w32_of_disjoint (by omega)

theorem prev_setSize (ha : 16 ∣ a) (hb : 16 ∣ b) : (h.setSize a v).prev b = h.prev b :=
  r32_w32_of_disjoint (by omega)

theorem prev_setPrevSize (ha : 16 ∣ a) (hb : 16 ∣ b) : (h.setPrevSize a v).prev b = h.prev b :=
  r32_w32_of_disjoint (by omega)

theorem prev_setNext (ha : 16 ∣ a) (hb : 16 ∣ b) : (h.setNext a v).prev b = h.prev b :=
  r32_w32_of_disjoint (by omega)

/-! ## Chains -/

/-- The packed word of a block. -/
def packed (b : Block) : ℕ := b.size + 2 ^ 31 + b.used.toNat

/-- The header of `b` in memory: its packed size, and its neighbours at `p` and `n`. -/
structure Header (h : Heap) (b : Block) (p n : ℕ) : Prop where
  size : h.size b.addr = packed b
  next : h.next b.addr = n
  prev : h.prev b.addr = p

/-- The address of the first block, or `n` when there is none. -/
def headAddr (bs : List Block) (n : ℕ) : ℕ := (bs.head?.map Block.addr).getD n

/-- The address of the last block, or `p` when there is none. -/
def lastAddr (bs : List Block) (p : ℕ) : ℕ := (bs.getLast?.map Block.addr).getD p

@[simp] theorem headAddr_nil (n : ℕ) : headAddr [] n = n := rfl
@[simp] theorem headAddr_cons (b : Block) (bs : List Block) (n : ℕ) :
    headAddr (b :: bs) n = b.addr := rfl
@[simp] theorem lastAddr_nil (p : ℕ) : lastAddr [] p = p := rfl
@[simp] theorem lastAddr_concat (bs : List Block) (b : Block) (p : ℕ) :
    lastAddr (bs ++ [b]) p = b.addr := by simp [lastAddr]

theorem headAddr_append (xs ys : List Block) (n : ℕ) :
    headAddr (xs ++ ys) n = headAddr xs (headAddr ys n) := by
  cases xs <;> rfl

theorem lastAddr_cons (b : Block) (bs : List Block) (p : ℕ) :
    lastAddr (b :: bs) p = lastAddr bs b.addr := by
  rcases List.eq_nil_or_concat' bs with rfl | ⟨bs, c, rfl⟩
  · rfl
  · rw [← List.cons_append, lastAddr_concat, lastAddr_concat]

/-- The blocks are linked in memory, with `p` before the first and `n` after the last. -/
def Chain (h : Heap) : ℕ → ℕ → List Block → Prop
  | _, _, [] => True
  | p, n, b :: bs => Header h b p (headAddr bs n) ∧ Chain h b.addr n bs

theorem chain_append {n : ℕ} {xs ys : List Block} : ∀ {p : ℕ},
    Chain h p n (xs ++ ys) ↔
      Chain h p (headAddr ys n) xs ∧ Chain h (lastAddr xs p) n ys := by
  induction xs with
  | nil => intro p; simp [Chain]
  | cons x xs ih =>
    intro p
    rw [List.cons_append, Chain, Chain, ih, headAddr_append, lastAddr_cons, and_assoc]

/-- A chain depends only on the header words of its blocks. -/
theorem Chain.congr {h' : Heap} {n : ℕ} {bs : List Block} : ∀ {p : ℕ}, Chain h p n bs →
    (∀ b ∈ bs, h'.size b.addr = h.size b.addr ∧ h'.next b.addr = h.next b.addr ∧
      h'.prev b.addr = h.prev b.addr) → Chain h' p n bs := by
  induction bs with
  | nil => intro p _ _; trivial
  | cons b bs ih =>
    intro p hc hw
    obtain ⟨hs, hn, hp⟩ := hw b (by simp)
    exact ⟨⟨hs.trans hc.1.size, hn.trans hc.1.next, hp.trans hc.1.prev⟩,
      ih hc.2 fun c hc => hw c (by simp [hc])⟩

theorem Chain.of_mem_eq {h' : Heap} {p n : ℕ} {bs : List Block} (hc : Chain h p n bs)
    (hm : h'.mem = h.mem) : Chain h' p n bs := by
  refine hc.congr fun b _ => ?_
  rw [size, size, next, next, prev, prev, hm]
  exact ⟨rfl, rfl, rfl⟩

@[simp] theorem mem_addCoalesced (h : Heap) : h.addCoalesced.mem = h.mem := rfl
@[simp] theorem mem_addAlloc (h : Heap) : h.addAlloc.mem = h.mem := rfl
@[simp] theorem mem_addFree (h : Heap) : h.addFree.mem = h.mem := rfl
@[simp] theorem mem_addFrames (h : Heap) (n : ℕ) : (h.addFrames n).mem = h.mem := rfl
@[simp] theorem mem_setHead (h : Heap) (b : ℕ) : (h.setHead b).mem = h.mem := rfl
@[simp] theorem mem_setMem (h : Heap) (m : Bytes) : (h.setMem m).mem = m := rfl

/-- Changing what lies before a chain only changes the first back link. -/
theorem Chain.reprev {h' : Heap} {p p' n : ℕ} {bs : List Block} (hc : Chain h p n bs)
    (hw : ∀ b ∈ bs, h'.size b.addr = h.size b.addr ∧ h'.next b.addr = h.next b.addr)
    (hp : ∀ b ∈ bs, h'.prev b.addr = if b.addr = headAddr bs 0 then p' else h.prev b.addr)
    (hnd : ∀ b ∈ bs.tail, b.addr ≠ headAddr bs 0) : Chain h' p' n bs := by
  cases bs with
  | nil => trivial
  | cons b bs =>
    obtain ⟨hs, hn⟩ := hw b (by simp)
    refine ⟨⟨hs.trans hc.1.size, hn.trans hc.1.next, ?_⟩, hc.2.congr fun c hc => ?_⟩
    · rw [hp b (by simp), headAddr_cons, if_pos rfl]
    · have h1 := hw c (by simp [hc])
      exact ⟨h1.1, h1.2, by rw [hp c (by simp [hc]), if_neg (hnd c hc)]⟩

theorem Header.bsize_eq {b : Block} {p n : ℕ} (hd : Header h b p n) (hs : b.size < 2 ^ 31)
    (h2 : 2 ∣ b.size) : h.bsize b.addr = b.size := by
  rw [Heap.bsize_eq, hd.size, packed]
  cases b.used <;> simp only [Bool.toNat_false, Bool.toNat_true] <;> omega

theorem Header.inUse_eq {b : Block} {p n : ℕ} (hd : Header h b p n) (h2 : 2 ∣ b.size) :
    h.inUse b.addr = b.used := by
  rw [Heap.inUse_eq, hd.size, packed]
  cases b.used <;> simp only [Bool.toNat_false, Bool.toNat_true, decide_eq_true_eq,
    decide_eq_false_iff_not] <;> omega

theorem Header.ours {b : Block} {p n : ℕ} (hd : Header h b p n) : h.ours b.addr = true := by
  rw [ours_eq, hd.size, packed]
  exact decide_eq_true (by omega)

/-! ## The header words after each operation -/

/-- The word `mark` writes, as a sum. -/
theorem mark_word (h : Heap) (a : ℕ) (used : Bool) :
    h.bsize a ||| kMagic ||| (if used then kInUse else 0) = h.bsize a + 2 ^ 31 + used.toNat := by
  have hlt : h.bsize a < 2 ^ 31 := by rw [bsize_eq]; omega
  have h2 : 2 ∣ h.bsize a := by rw [bsize_eq]; omega
  rw [or_kMagic hlt]
  cases used
  · simp
  · simp only [if_true, Bool.toNat_true]
    exact or_kInUse (by omega)

theorem size_mark (ha : 16 ∣ a) (hb : 16 ∣ b) (used : Bool) :
    (h.mark a used).size b = if b = a then h.bsize a + 2 ^ 31 + used.toNat else h.size b := by
  have hlt : h.bsize a + 2 ≤ 2 ^ 31 := by rw [bsize_eq]; omega
  have hu : used.toNat ≤ 1 := used.toNat_le
  rw [mark, mark_word, size_setSize ha hb, Nat.mod_eq_of_lt (by omega)]

theorem next_mark (ha : 16 ∣ a) (hb : 16 ∣ b) (used : Bool) :
    (h.mark a used).next b = h.next b := next_setSize ha hb

theorem prev_mark (ha : 16 ∣ a) (hb : 16 ∣ b) (used : Bool) :
    (h.mark a used).prev b = h.prev b := prev_setSize ha hb

theorem size_setPrevIf (ha : 16 ∣ a) (hb : 16 ∣ b) : (h.setPrevIf a v).size b = h.size b := by
  rw [setPrevIf]; split
  · rfl
  · exact size_setPrev ha hb

theorem next_setPrevIf (ha : 16 ∣ a) (hb : 16 ∣ b) : (h.setPrevIf a v).next b = h.next b := by
  rw [setPrevIf]; split
  · rfl
  · exact next_setPrev ha hb

theorem prev_setPrevIf (ha : 16 ∣ a) (hb : 16 ∣ b) (hv : v < 2 ^ 32) (hb0 : b ≠ 0) :
    (h.setPrevIf a v).prev b = if b = a then v else h.prev b := by
  rw [setPrevIf]; split
  · next h0 => rw [if_neg (by omega)]
  · rw [prev_setPrev ha hb, Nat.mod_eq_of_lt hv]

section PutTail

variable {tail after : ℕ}

theorem size_putTail {total bytes : ℕ} (hb : 16 ∣ b) (ht : 16 ∣ tail)
    (ha : 16 ∣ after) (hx : 16 ∣ a)
    (htot : total < 2 ^ 31) (h2 : 2 ∣ total - bytes) (hle : bytes ≤ total) :
    (h.putTail b tail after total bytes).size a =
      if a = b then bytes + 2 ^ 31
      else if a = tail then total - bytes + 2 ^ 31 else h.size a := by
  have hbs : ((h.setSize tail ((total - bytes) ||| kMagic)).setPrevSize tail bytes).bsize tail
      = total - bytes := by
    rw [bsize_eq, size_setPrevSize ht ht, size_setSize ht ht, if_pos rfl, or_kMagic (by omega)]
    omega
  rw [putTail, size_setPrevIf ha hx, size_setNext ht hx, size_setPrev ht hx, size_setNext hb hx,
    size_setSize hb hx, size_mark ht hx, size_setPrevSize ht hx, size_setSize ht hx,
    or_kMagic (by omega), Nat.mod_eq_of_lt (by omega), hbs]
  by_cases hab : a = b
  · rw [if_pos hab, if_pos hab]
  · rw [if_neg hab, if_neg hab]
    by_cases hat : a = tail
    · rw [if_pos hat, if_pos hat, Bool.toNat_false, Nat.add_zero]
    · rw [if_neg hat, if_neg hat, if_neg hat]

theorem next_putTail (total bytes : ℕ) (hb : 16 ∣ b) (ht : 16 ∣ tail)
    (ha : 16 ∣ after) (hx : 16 ∣ a)
    (hbt : b ≠ tail) (htl : tail < 2 ^ 32) (hal : after < 2 ^ 32) :
    (h.putTail b tail after total bytes).next a =
      if a = b then tail else if a = tail then after else h.next a := by
  rw [putTail, next_setPrevIf ha hx, next_setNext ht hx, next_setPrev ht hx, next_setNext hb hx,
    next_setSize hb hx, next_mark ht hx, next_setPrevSize ht hx, next_setSize ht hx,
    Nat.mod_eq_of_lt htl, Nat.mod_eq_of_lt hal]
  by_cases hab : a = b
  · rw [if_neg (by omega), if_pos hab, if_pos hab]
  · rw [if_neg hab, if_neg hab]

theorem prev_putTail (total bytes : ℕ) (hb : 16 ∣ b) (ht : 16 ∣ tail)
    (ha : 16 ∣ after) (hx : 16 ∣ a)
    (htl : tail < 2 ^ 32) (hbl : b < 2 ^ 32) (ha0 : a ≠ 0) :
    (h.putTail b tail after total bytes).prev a =
      if a = after then tail else if a = tail then b else h.prev a := by
  rw [putTail, prev_setPrevIf ha hx htl ha0, prev_setNext ht hx, prev_setPrev ht hx,
    prev_setNext hb hx, prev_setSize hb hx, prev_mark ht hx, prev_setPrevSize ht hx,
    prev_setSize ht hx, Nat.mod_eq_of_lt hbl]

end PutTail

/-! ## The chain after each operation

`Placed lo hi pre b post` collects where the other headers are: left of `b`, or at its end and
beyond. With it every side condition below is arithmetic. -/

/-- The tiling around `b`, in a region of 32-bit addresses that does not hold address `0`. -/
structure Placed (lo hi : ℕ) (pre : List Block) (b : Block) (post : List Block) : Prop where
  /-- The blocks fill the region. -/
  tiles : Tiles 16 32 lo hi (pre ++ b :: post)
  /-- The region is aligned. -/
  dvd : 16 ∣ lo
  /-- Zero is no address of a block. -/
  pos : 0 < lo
  /-- Addresses are words. -/
  hi_lt : hi < 2 ^ 32
  /-- No size has the highest bit. -/
  region : hi - lo < 2 ^ 31

namespace Placed

variable {lo hi : ℕ} {pre post : List Block} {b : Block}

theorem addr (hp : Placed lo hi pre b post) :
    16 ∣ b.addr ∧ lo ≤ b.addr ∧ b.addr + b.size ≤ hi ∧ 32 ≤ b.size ∧ 16 ∣ b.size ∧
      b.size < 2 ^ 31 := by
  have hmem : b ∈ pre ++ b :: post := by simp
  obtain ⟨h1, h2, h3, h4⟩ := hp.tiles.bounds b hmem
  have h5 := hp.region
  exact ⟨hp.tiles.dvd_addr hp.dvd b hmem, h1, h2, h3, h4, by omega⟩

theorem left (hp : Placed lo hi pre b post) {c : Block} (hc : c ∈ pre) :
    16 ∣ c.addr ∧ 0 < c.addr ∧ c.addr + 32 ≤ b.addr := by
  obtain ⟨h1, -, -, -⟩ := hp.tiles.around
  obtain ⟨h2, h3, h4, -⟩ := h1.bounds c hc
  have h5 := hp.pos
  exact ⟨h1.dvd_addr hp.dvd c hc, by omega, by omega⟩

theorem right (hp : Placed lo hi pre b post) {c : Block} (hc : c ∈ post) :
    16 ∣ c.addr ∧ b.addr + b.size ≤ c.addr ∧ c.addr + c.size ≤ hi ∧ c.size < 2 ^ 31 ∧
      16 ∣ c.size := by
  obtain ⟨-, -, h1, h2⟩ := hp.tiles.around
  obtain ⟨h3, h4, h5, h6⟩ := h2.bounds c hc
  obtain ⟨ha, hl, -⟩ := hp.addr
  have h7 := hp.region
  exact ⟨h2.dvd_addr (by omega) c hc, h3, h4, by omega, h6⟩

theorem headAddr_post (hp : Placed lo hi pre b post) :
    headAddr post 0 = 0 ∨ headAddr post 0 = b.addr + b.size := by
  obtain ⟨-, -, -, h⟩ := hp.tiles.around
  cases post with
  | nil => exact Or.inl rfl
  | cons c post => exact Or.inr h.1

theorem ne_headAddr_post (hp : Placed lo hi pre b post) {c : Block} (hc : c ∈ post.tail) :
    c.addr ≠ headAddr post 0 := by
  obtain ⟨-, -, -, h⟩ := hp.tiles.around
  cases post with
  | nil => simp at hc
  | cons d post =>
    have h1 := (h.2.2.2.bounds c hc).1
    have h2 := h.2.1
    have h3 := h.1
    rw [headAddr_cons]
    omega

end Placed

section Chains

variable {lo hi : ℕ} {pre post : List Block} {b : Block}

theorem Chain.around (hc : Chain h 0 0 (pre ++ b :: post)) :
    Chain h 0 b.addr pre ∧ Header h b (lastAddr pre 0) (headAddr post 0) ∧
      Chain h b.addr 0 post := by
  obtain ⟨h1, h2, h3⟩ := chain_append.mp hc
  exact ⟨h1, h2, h3⟩

/-- **Cutting a block in two.** -/
theorem Chain.putTail (hp : Placed lo hi pre b post) (hc : Chain h 0 0 (pre ++ b :: post)) {n : ℕ}
    (hn : 16 ∣ n) (hn0 : 0 < n) (hnb : n < b.size) :
    Chain (h.putTail b.addr (b.addr + n) (h.next b.addr) b.size n) 0 0
      (pre ++ ⟨b.addr, n, false⟩ :: ⟨b.addr + n, b.size - n, false⟩ :: post) := by
  obtain ⟨hpre, hhd, hpost⟩ := hc.around
  obtain ⟨ha, hlo, hend, -, hs16, hs31⟩ := hp.addr
  have hhi := hp.hi_lt
  have hpos := hp.pos
  have haft : headAddr post 0 = 0 ∨ headAddr post 0 = b.addr + b.size := hp.headAddr_post
  have haft16 : 16 ∣ headAddr post 0 := by omega
  have ht16 : 16 ∣ b.addr + n := by omega
  rw [hhd.next]
  have hsz : ∀ x, 16 ∣ x → _ := fun x hx => size_putTail (h := h) ha ht16 haft16 hx hs31
    (show 2 ∣ b.size - n by omega) (Nat.le_of_lt hnb)
  have hnx : ∀ x, 16 ∣ x → _ := fun x hx => next_putTail (h := h) b.size n
    ha ht16 haft16 hx (by omega) (by omega) (by omega)
  have hpv : ∀ x, 16 ∣ x → x ≠ 0 → _ := fun x hx hx0 => prev_putTail (h := h) b.size n
    ha ht16 haft16 hx (by omega) (by omega) hx0
  rw [chain_append]
  refine ⟨hpre.congr fun x hx => ?_, ⟨?_, ?_, ?_⟩, ⟨?_, ?_, ?_⟩, ?_⟩
  · obtain ⟨h1, h2, h3⟩ := hp.left hx
    rw [hsz _ h1, hnx _ h1, hpv _ h1 (by omega), if_neg (by omega), if_neg (by omega),
      if_neg (by omega), if_neg (by omega), if_neg (by omega), if_neg (by omega)]
    exact ⟨rfl, rfl, rfl⟩
  · rw [hsz _ ha, if_pos rfl, packed, Bool.toNat_false, Nat.add_zero]
  · rw [hnx _ ha, if_pos rfl, headAddr_cons]
  · rw [hpv _ ha (by omega), if_neg (by omega), if_neg (by omega), hhd.prev]
  · rw [hsz _ ht16, if_neg (by omega), if_pos rfl, packed, Bool.toNat_false, Nat.add_zero]
  · rw [hnx _ ht16, if_neg (by omega), if_pos rfl]
  · rw [hpv _ ht16 (by omega), if_neg (by omega), if_pos rfl]
  · refine hpost.reprev (fun x hx => ?_) (fun x hx => ?_) fun x hx => hp.ne_headAddr_post hx
    · obtain ⟨h1, h2, -⟩ := hp.right hx
      rw [hsz _ h1, hnx _ h1, if_neg (by omega), if_neg (by omega), if_neg (by omega),
        if_neg (by omega)]
      exact ⟨rfl, rfl⟩
    · obtain ⟨h1, h2, -⟩ := hp.right hx
      rw [hpv _ h1 (by omega)]
      by_cases hx' : x.addr = headAddr post 0
      · rw [if_pos hx', if_pos hx']
      · rw [if_neg hx', if_neg hx', if_neg (by omega)]

/-- **Marking a block.** -/
theorem Chain.mark (hp : Placed lo hi pre b post) (hc : Chain h 0 0 (pre ++ b :: post))
    (used : Bool) :
    Chain (h.mark b.addr used) 0 0 (pre ++ ⟨b.addr, b.size, used⟩ :: post) := by
  obtain ⟨hpre, hhd, hpost⟩ := hc.around
  obtain ⟨ha, hlo, -, h32, hs16, hs31⟩ := hp.addr
  rw [chain_append]
  refine ⟨hpre.congr fun x hx => ?_, ⟨?_, ?_, ?_⟩, hpost.congr fun x hx => ?_⟩
  · obtain ⟨h1, -, h3⟩ := hp.left hx
    rw [size_mark ha h1, next_mark ha h1, prev_mark ha h1, if_neg (by omega)]
    exact ⟨rfl, rfl, rfl⟩
  · rw [size_mark ha ha, if_pos rfl, hhd.bsize_eq hs31 (by omega), packed]
  · rw [next_mark ha ha, hhd.next]
  · rw [prev_mark ha ha, hhd.prev]
  · obtain ⟨h1, h2, -⟩ := hp.right hx
    rw [size_mark ha h1, next_mark ha h1, prev_mark ha h1, if_neg (by omega)]
    exact ⟨rfl, rfl, rfl⟩

/-- **Handing out a block**: carve it, then mark it used. -/
theorem Chain.split_mark (hp : Placed lo hi pre b post) (hc : Chain h 0 0 (pre ++ b :: post))
    {n : ℕ} (hn : 16 ∣ n) (hn32 : 32 ≤ n) (hnb : n ≤ b.size) :
    Chain ((h.split b.addr n).mark b.addr true) 0 0 (pre ++ carve 32 b n ++ post) := by
  obtain ⟨-, hhd, -⟩ := hc.around
  obtain ⟨ha, hlo, hend, h32, hs16, hs31⟩ := hp.addr
  rw [split, hhd.bsize_eq hs31 (by omega), carve, List.append_assoc]
  by_cases hsmall : b.size - n < 32
  · rw [kMinBlock, if_pos (Or.inr hsmall), if_pos hsmall]
    exact hc.mark hp true
  · rw [kMinBlock, if_neg (by omega), if_neg hsmall]
    have hcut := hc.putTail hp hn (by omega) (by omega)
    refine Chain.mark (b := ⟨b.addr, n, false⟩) ⟨?_, hp.dvd, hp.pos, hp.hi_lt, hp.region⟩ hcut true
    obtain ⟨hpre, -, -, hpost⟩ := hp.tiles.around
    refine tiles_around (b := ⟨b.addr, n, false⟩) hpre hn32 hn
      ⟨rfl, by simp only; omega, by simp only; omega, ?_⟩
    change Tiles 16 32 (b.addr + n + (b.size - n)) hi post
    rw [show b.addr + n + (b.size - n) = b.addr + b.size by omega]
    exact hpost

/-- **Gluing two neighbours.** -/
theorem Chain.absorb {c : Block} (hp : Placed lo hi pre b (c :: post))
    (hc : Chain h 0 0 (pre ++ b :: c :: post)) :
    Chain (h.absorb b.addr c.addr) 0 0 (pre ++ ⟨b.addr, b.size + c.size, false⟩ :: post) := by
  obtain ⟨hpre, hhd, hhc, hpost⟩ := hc.around
  obtain ⟨ha, hlo, hend, h32, hs16, hs31⟩ := hp.addr
  obtain ⟨hc16, hcb, hcend, hcs, hcs16⟩ := hp.right (c := c) (by simp)
  have hpos := hp.pos
  have hhi := hp.hi_lt
  have hreg := hp.region
  have hca : c.addr = b.addr + b.size := by
    have := hp.headAddr_post; rw [headAddr_cons] at this; omega
  -- what lies behind `c` lies behind `b` as well
  have hp' : Placed lo hi (pre ++ [b]) c post :=
    ⟨by rw [List.append_assoc]; exact hp.tiles, hp.dvd, hp.pos, hp.hi_lt, hp.region⟩
  have haft := hp'.headAddr_post
  have haft16 : 16 ∣ headAddr post 0 := by omega
  have hbc : c.addr ≠ b.addr := by omega
  rw [Heap.absorb, hhd.bsize_eq hs31 (by omega), hhc.bsize_eq hcs (by omega),
    or_kMagic (by omega)]
  simp only [next_setSize ha hc16, next_setNext ha hc16, if_neg hbc, hhc.next]
  refine Chain.of_mem_eq (h := ((h.setSize b.addr (b.size + c.size + 2 ^ 31)).setNext b.addr
    (headAddr post 0)).setPrevIf (headAddr post 0) b.addr) ?_ (mem_addCoalesced _)
  generalize hh : h.setSize b.addr (b.size + c.size + 2 ^ 31) = h1
  have hsz : ∀ x, 16 ∣ x → ((h1.setNext b.addr (headAddr post 0)).setPrevIf
      (headAddr post 0) b.addr).size x
        = if x = b.addr then b.size + c.size + 2 ^ 31 else h.size x := by
    intro x hx
    rw [size_setPrevIf haft16 hx, size_setNext ha hx, ← hh, size_setSize ha hx,
      Nat.mod_eq_of_lt (by omega)]
  have hnx : ∀ x, 16 ∣ x → ((h1.setNext b.addr (headAddr post 0)).setPrevIf
      (headAddr post 0) b.addr).next x = if x = b.addr then headAddr post 0 else h.next x := by
    intro x hx
    rw [next_setPrevIf haft16 hx, next_setNext ha hx, ← hh, next_setSize ha hx,
      Nat.mod_eq_of_lt (by omega)]
  have hpv : ∀ x, 16 ∣ x → x ≠ 0 → ((h1.setNext b.addr (headAddr post 0)).setPrevIf
      (headAddr post 0) b.addr).prev x
        = if x = headAddr post 0 then b.addr else h.prev x := by
    intro x hx hx0
    rw [prev_setPrevIf haft16 hx (by omega) hx0, prev_setNext ha hx, ← hh, prev_setSize ha hx]
  rw [chain_append]
  refine ⟨hpre.congr fun x hx => ?_, ⟨?_, ?_, ?_⟩, ?_⟩
  · obtain ⟨h2, h3, h4⟩ := hp.left hx
    rw [hsz _ h2, hnx _ h2, hpv _ h2 (by omega), if_neg (by omega), if_neg (by omega),
      if_neg (by omega)]
    exact ⟨rfl, rfl, rfl⟩
  · rw [hsz _ ha, if_pos rfl, packed, Bool.toNat_false, Nat.add_zero]
  · rw [hnx _ ha, if_pos rfl]
  · rw [hpv _ ha (by omega), if_neg (by omega), hhd.prev]
  · refine hpost.reprev (fun x hx => ?_) (fun x hx => ?_) fun x hx => hp'.ne_headAddr_post hx
    · obtain ⟨h2, h3, -⟩ := hp'.right hx
      rw [hsz _ h2, hnx _ h2, if_neg (by omega), if_neg (by omega)]
      exact ⟨rfl, rfl⟩
    · obtain ⟨h2, h3, -⟩ := hp'.right hx
      rw [hpv _ h2 (by omega)]

theorem Chain.joinNext (hp : Placed lo hi pre b post) (hc : Chain h 0 0 (pre ++ b :: post))
    (hb : b.used = false) : Chain (h.joinNext b.addr) 0 0 (pre ++ joinRight b post) := by
  obtain ⟨-, hhd, hpost⟩ := hc.around
  have hpos := hp.pos
  have hadd := hp.addr
  rw [Heap.joinNext, hhd.next]
  cases post with
  | nil => exact hc
  | cons c post =>
    obtain ⟨-, hcb, -, -, hcs16⟩ := hp.right (c := c) (by simp)
    rw [headAddr_cons, hpost.1.inUse_eq (by omega), joinRight]
    by_cases hcu : c.used = true
    · rw [if_pos (Or.inr hcu), if_pos hcu]
      exact hc
    · rw [if_neg (not_or_intro (by omega) hcu), if_neg hcu, hb]
      exact hc.absorb hp

theorem Chain.joinPrev (hp : Placed lo hi pre b post) (hc : Chain h 0 0 (pre ++ b :: post)) :
    Chain (h.joinPrev b.addr) 0 0 (joinLeft pre (b :: post)) := by
  obtain ⟨hpre, hhd, -⟩ := hc.around
  rw [Heap.joinPrev, hhd.prev]
  rcases List.eq_nil_or_concat' pre with rfl | ⟨pre, p, rfl⟩
  · simpa using hc
  · obtain ⟨-, h0, -⟩ := hp.left (c := p) (by simp)
    rw [List.append_assoc] at hc
    have hp' : Placed lo hi pre p (b :: post) :=
      ⟨by simpa using hp.tiles, hp.dvd, hp.pos, hp.hi_lt, hp.region⟩
    obtain ⟨-, hpd, -⟩ := hc.around
    obtain ⟨-, -, -, -, hs16, -⟩ := hp'.addr
    rw [lastAddr_concat, hpd.inUse_eq (by omega), joinLeft_concat]
    by_cases hpu : p.used = true
    · rw [if_pos (Or.inr hpu), if_pos hpu, List.append_assoc]
      exact hc
    · rw [if_neg (not_or_intro (by omega) hpu), if_neg hpu, Bool.eq_false_of_not_eq_true hpu]
      exact hc.absorb hp'

/-- **Gluing a free block to both its neighbours.** -/
theorem Chain.join (hp : Placed lo hi pre b post) (hc : Chain h 0 0 (pre ++ b :: post))
    (hb : b.used = false) :
    Chain ((h.joinNext b.addr).joinPrev b.addr) 0 0 (joinLeft pre (joinRight b post)) := by
  have hc' := hc.joinNext hp hb
  have ht' := hp.tiles.joinRight
  obtain ⟨k, post', heq, -⟩ := joinRight_eq_cons b post
  rw [heq] at hc' ht' ⊢
  exact Chain.joinPrev (b := ⟨b.addr, k, b.used⟩) ⟨ht', hp.dvd, hp.pos, hp.hi_lt, hp.region⟩ hc'

end Chains

end Heap

end Aurisys
