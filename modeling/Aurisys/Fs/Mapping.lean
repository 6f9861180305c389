import Aurisys.Fs.View

/-!
# Where a logical block is

`map_lblock` goes down a tree of extents, or along a chain of pointers, and reads one block after
the other into `g_b1` on the way. Where it comes to depends on the image, on the blocks, and on what
is in `g_b1` behind the end of a block; so it can be told without the buffers, as `blockOf`.

A tree is in order when the keys of each node are sorted and each child has only what is between its
key and the next one. Then the extents at the leaves do not overlap, and the way down, which ends at
the first child whose range has the block, misses nothing.

## Main definitions

* `blockOf` — where a logical block is
* `Extent`, `Tree` — an extent, and a tree of them in order
* `Leads` — a chain of pointers

## Main results

* `wp_mapLblock_blockOf`
* `Tree.treeWalk_eq_some`, `indirect_eq_some`
* `mapLblock_correct`
-/

namespace Aurisys

open Bytes Fallible

namespace Fs

/-- What `g_b1` is when a block has been read into it. -/
def inB1 (s : Fs) (blk : ℕ) : Bytes := memcpy s.b1 0 (s.disk blk) 0 s.geo.bs

/-- The way of `extent_walk`. -/
def treeWalk (s : Fs) (lblock : ℕ) : ℕ → Bytes → Option ℕ
  | 0, _ => none
  | depth + 1, node =>
    if r16 node 0 = kExtMagic then
      if r16 node 6 = 0 then leafFind node lblock
      else (indexFind node lblock (List.range (r16 node 2))).bind fun child =>
        if child < s.geo.blocks then s.treeWalk lblock depth (s.inB1 child) else none
    else none

/-- A pointer that points into the volume. -/
def target (s : Fs) (p : ℕ) : Option ℕ := if p ≠ 0 ∧ p < s.geo.blocks then some p else none

/-- The way of `indirect_walk`. -/
def indirect (s : Fs) (img : Bytes) (lblock : ℕ) : Option ℕ :=
  let per := s.geo.bs / 4
  if lblock < 12 then s.target (r32 img (0x28 + lblock * 4))
  else if lblock - 12 < per then
    (s.target (r32 img (0x28 + 12 * 4))).bind fun ind =>
      s.target (r32 (s.inB1 ind) ((lblock - 12) * 4))
  else if lblock - 12 - per < per * per then
    (s.target (r32 img (0x28 + 13 * 4))).bind fun dbl =>
      (s.target (r32 (s.inB1 dbl) ((lblock - 12 - per) / per * 4))).bind fun sn =>
        s.target (r32 (s.inB1 sn) ((lblock - 12 - per) % per * 4))
  else none

/-- **Where a logical block is.** -/
def blockOf (s : Fs) (img : Bytes) (lblock : ℕ) : Option ℕ :=
  if r32 img 0x20 &&& kExtentsFl ≠ 0 then
    s.treeWalk lblock (kMaxDepth + 1) fun a => img (0x28 + a)
  else s.indirect img lblock

/-! ## The buffers do not matter -/

/-- The states know the same, and so does `g_b1` behind the end of a block. -/
structure Near (s : Fs) (img : Bytes) (t : Fs) : Prop where
  core : t.core = s.core
  ino : t.ino = img
  b1 : ∀ a, s.geo.bs ≤ a → t.b1 a = s.b1 a

variable {s t : Fs} {img node : Bytes} {lblock p blk ino : ℕ}

theorem Near.inB1 (h : Near s img t) (blk : ℕ) : t.inB1 blk = s.inB1 blk := by
  rw [Fs.inB1, Fs.inB1, core_geo h.core, core_disk h.core]
  funext a
  by_cases ha : a < s.geo.bs
  · simp only [memcpy, Nat.zero_le, Nat.zero_add, ha, and_self, if_true]
  · rw [memcpy_of_lt_or_ge (by omega), memcpy_of_lt_or_ge (by omega), h.b1 a (by omega)]

/-- A block is read. -/
theorem Near.readB1 (h : Near s img t) : wp (readB1 blk)
    (fun _ t' => blk < s.geo.blocks ∧ Near s img t' ∧ t'.b1 = s.inB1 blk)
    (fun t' => ¬blk < s.geo.blocks ∧ Near s img t') t := by
  have hgeo := core_geo h.core
  rw [wp_readB1, hgeo]
  refine ⟨fun hlt => ⟨hlt, ⟨Eq.trans rfl h.core, h.ino, fun a ha => ?_⟩, h.inB1 blk⟩,
    fun hn => ⟨hn, h⟩⟩
  rw [read1, setB1_b1, hgeo, memcpy_of_lt_or_ge (by omega), h.b1 a ha]

theorem Near.pointer (h : Near s img t) :
    wp (pointer p) (fun q t' => s.target p = some q ∧ q < s.geo.blocks ∧ Near s img t')
      (fun t' => s.target p = none ∧ Near s img t') t := by
  rw [Fs.pointer, wp_bind, wp_get, wp_bind, wp_guard, core_geo h.core]
  refine ⟨fun hp => ⟨by rw [Fs.target, if_pos hp], hp.2, h⟩,
    fun hp => ⟨by rw [Fs.target, if_neg hp], h⟩⟩

theorem Near.extentWalk (h : Near s img t) (depth : ℕ) (node : Bytes) :
    wp (extentWalk lblock depth node) (fun q t' => s.treeWalk lblock depth node = some q ∧
      Near s img t')
      (fun t' => s.treeWalk lblock depth node = none ∧ Near s img t') t := by
  induction depth generalizing node t with
  | zero => exact ⟨rfl, h⟩
  | succ depth ih =>
    rw [Fs.extentWalk, treeWalk, wp_bind, wp_guard]
    constructor
    · intro hmagic
      rw [if_pos hmagic, wp_ite]
      constructor
      · intro hleaf
        rw [if_pos hleaf, wp_ofOption]
        exact ⟨fun a ha => ⟨ha, h⟩, fun hn => ⟨hn, h⟩⟩
      · intro hinner
        rw [if_neg hinner, wp_bind, wp_ofOption]
        constructor
        · intro child hchild
          rw [hchild, Option.bind_some, wp_bind]
          refine wp_mono h.readB1 ?_ ?_
          · rintro _ t' ⟨hlt, h', hb1⟩
            rw [if_pos hlt, wp_bind, wp_get, hb1]
            exact ih h' _
          · rintro t' ⟨hn, h'⟩
            exact ⟨if_neg hn, h'⟩
        · intro hnone
          rw [hnone]
          exact ⟨rfl, h⟩
    · intro hmagic
      rw [if_neg hmagic]
      exact ⟨rfl, h⟩

theorem Near.indirectWalk (h : Near s img t) :
    wp (indirectWalk lblock) (fun q t' => s.indirect img lblock = some q ∧ Near s img t')
      (fun t' => s.indirect img lblock = none ∧ Near s img t') t := by
  have hgeo := core_geo h.core
  have hlast : ∀ {t : Fs} {p : ℕ}, Near s img t → wp (Fs.pointer p)
      (fun q t' => s.target p = some q ∧ Near s img t') (fun t' => s.target p = none ∧
        Near s img t') t :=
    fun h => wp_mono h.pointer (fun _ _ hq => ⟨hq.1, hq.2.2⟩) fun _ => id
  rw [Fs.indirectWalk, indirect, wp_bind, wp_get, hgeo, h.ino]
  dsimp only
  generalize s.geo.bs / 4 = per
  rw [wp_ite]
  constructor
  · intro hdirect
    rw [if_pos hdirect]
    exact hlast h
  · intro hdirect
    rw [if_neg hdirect, wp_ite]
    constructor
    · intro hsingle
      rw [if_pos hsingle, wp_bind]
      refine wp_mono h.pointer ?_ fun t' hn => ⟨by rw [hn.1]; rfl, hn.2⟩
      rintro ind t₁ ⟨hind, hlt, h₁⟩
      rw [hind, Option.bind_some, wp_bind]
      refine wp_mono h₁.readB1 ?_ fun t' hn => absurd hlt hn.1
      rintro _ t₂ ⟨_, h₂, hb1⟩
      rw [wp_bind, wp_get, hb1]
      exact hlast h₂
    · intro hsingle
      rw [if_neg hsingle, wp_ite]
      constructor
      · intro hdouble
        rw [if_pos hdouble, wp_bind]
        refine wp_mono h.pointer ?_ fun t' hn => ⟨by rw [hn.1]; rfl, hn.2⟩
        rintro dbl t₁ ⟨hdbl, hlt, h₁⟩
        rw [hdbl, Option.bind_some, wp_bind]
        refine wp_mono h₁.readB1 ?_ fun t' hn => absurd hlt hn.1
        rintro _ t₂ ⟨_, h₂, hb1⟩
        rw [wp_bind, wp_get, hb1, wp_bind]
        refine wp_mono h₂.pointer ?_ fun t' hn => ⟨by rw [hn.1]; rfl, hn.2⟩
        rintro sn t₃ ⟨hsn, hlt₃, h₃⟩
        rw [hsn, Option.bind_some, wp_bind]
        refine wp_mono h₃.readB1 ?_ fun t' hn => absurd hlt₃ hn.1
        rintro _ t₄ ⟨_, h₄, hb1'⟩
        rw [wp_bind, wp_get, hb1']
        exact hlast h₄
      · intro hdouble
        rw [if_neg hdouble]
        exact ⟨rfl, h⟩

/-- **What `map_lblock` finds**, from any state that knows the same. -/
theorem wp_mapLblock_blockOf (h : Near s img t) :
    wp (mapLblock lblock) (fun q t' => s.blockOf img lblock = some q ∧ Near s img t')
      (fun t' => s.blockOf img lblock = none ∧ Near s img t') t := by
  rw [mapLblock, blockOf, wp_bind, wp_get, h.ino, wp_ite]
  constructor
  · intro hflag
    rw [if_pos hflag]
    exact h.extentWalk _ _
  · intro hflag
    rw [if_neg hflag]
    exact h.indirectWalk

theorem Near.refl (s : Fs) : Near s s.ino s := ⟨rfl, rfl, fun _ _ => rfl⟩

/-- What `map_lblock` finds. -/
theorem exec_mapLblock (s : Fs) (lblock : ℕ) :
    (exec (mapLblock lblock) s).1 = s.blockOf s.ino lblock :=
  fst_of_wp (wp_mono (wp_mapLblock_blockOf (.refl s)) (fun _ _ h => h.1) fun _ h => h.1)

/-! ## Trees in order -/

/-- `len` blocks from `lblock` on are those from `start` on. -/
structure Extent where
  lblock : ℕ
  len : ℕ
  start : ℕ

/-- It covers the logical block. -/
def Extent.Has (e : Extent) (lblock : ℕ) : Prop := e.lblock ≤ lblock ∧ lblock < e.lblock + e.len

/-- Which block that is. -/
def Extent.block (e : Extent) (lblock : ℕ) : ℕ := u32 (e.start + (lblock - e.lblock))

/-- The key of a record of a node. -/
def keyAt (node : Bytes) (i : ℕ) : ℕ := r32 node (12 + i * 12)

/-- The block of a child. -/
def childAt (node : Bytes) (i : ℕ) : ℕ := r32 node (12 + i * 12 + 4)

/-- The extent of a record of a leaf. -/
def leafExtent (node : Bytes) (i : ℕ) : Extent :=
  ⟨keyAt node i, r16 node (12 + i * 12 + 4), r32 node (12 + i * 12 + 8)⟩

/-- Where the range of a child ends, in a node whose own range ends at `hi`. -/
def nextKey (node : Bytes) (hi i : ℕ) : ℕ := if i + 1 < r16 node 2 then keyAt node (i + 1) else hi

/-- A tree of that depth in a node of `size` bytes, with extents for the logical blocks from `lo` up
to `hi`. -/
inductive Tree (s : Fs) : ℕ → ℕ → ℕ → ℕ → Bytes → List Extent → Prop
  | leaf {size lo hi : ℕ} {node : Bytes} (magic : r16 node 0 = kExtMagic) (depth : r16 node 6 = 0)
      (fits : 12 + r16 node 2 * 12 ≤ size)
      (plain : ∀ i < r16 node 2, r16 node (12 + i * 12 + 6) = 0 ∧
        r16 node (12 + i * 12 + 4) < 0x8000)
      (within : ∀ i < r16 node 2, lo ≤ keyAt node i ∧ keyAt node i + (leafExtent node i).len ≤ hi)
      (sorted : ∀ i j, i < j → j < r16 node 2 →
        keyAt node i + (leafExtent node i).len ≤ keyAt node j) :
      Tree s 0 size lo hi node ((List.range (r16 node 2)).map (leafExtent node))
  | index {d size lo hi : ℕ} {node : Bytes} {sub : ℕ → List Extent} (magic : r16 node 0 = kExtMagic)
      (depth : r16 node 6 = d + 1) (fits : 12 + r16 node 2 * 12 ≤ size)
      (plain : ∀ i < r16 node 2, r16 node (12 + i * 12 + 8) = 0 ∧ childAt node i < s.geo.blocks)
      (within : ∀ i < r16 node 2, lo ≤ keyAt node i ∧ keyAt node i ≤ hi)
      (sorted : ∀ i, i + 1 < r16 node 2 → keyAt node i < keyAt node (i + 1))
      (children : ∀ i < r16 node 2,
        Tree s d s.geo.bs (keyAt node i) (nextKey node hi i) (s.disk (childAt node i)) (sub i)) :
      Tree s (d + 1) size lo hi node ((List.range (r16 node 2)).flatMap sub)

namespace Tree

variable {d size lo hi₀ fuel : ℕ} {node' : Bytes} {exts : List Extent}

/-- It does not matter what is behind the node. -/
theorem congr (h : Tree s d size lo hi₀ node exts) (heq : ∀ a < size, node' a = node a) :
    Tree s d size lo hi₀ node' exts := by
  have hr16 : ∀ p, p + 2 ≤ size → r16 node' p = r16 node p :=
    fun p hp => r16_congr fun i hi => heq _ (by omega)
  have hr32 : ∀ p, p + 4 ≤ size → r32 node' p = r32 node p :=
    fun p hp => r32_congr fun i hi => heq _ (by omega)
  have hkey : 12 + r16 node 2 * 12 ≤ size → ∀ i < r16 node 2, keyAt node' i = keyAt node i :=
    fun hfits i hi => hr32 _ (by omega)
  cases h with
  | leaf magic depth fits plain within sorted =>
    have hn : r16 node' 2 = r16 node 2 := hr16 2 (by omega)
    have hext : ∀ i < r16 node 2, leafExtent node' i = leafExtent node i := by
      intro i hi
      rw [leafExtent, leafExtent, hkey fits i hi, hr16 _ (by omega), hr32 _ (by omega)]
    have hmap : (List.range (r16 node 2)).map (leafExtent node) =
        (List.range (r16 node' 2)).map (leafExtent node') := by
      rw [hn]
      exact List.map_congr_left fun i hi => (hext i (List.mem_range.mp hi)).symm
    rw [hmap]
    refine leaf ((hr16 0 (by omega)).trans magic) ((hr16 6 (by omega)).trans depth)
      (hn ▸ fits) ?_ ?_ ?_
    · intro i hi
      rw [hn] at hi
      rw [hr16 _ (by omega), hr16 _ (by omega)]
      exact plain i hi
    · intro i hi
      rw [hn] at hi
      rw [hkey fits i hi, hext i hi]
      exact within i hi
    · intro i j hij hj
      rw [hn] at hj
      rw [hkey fits i (by omega), hkey fits j hj, hext i (by omega)]
      exact sorted i j hij hj
  | index magic depth fits plain within sorted children =>
    have hn : r16 node' 2 = r16 node 2 := hr16 2 (by omega)
    have hchild : ∀ i < r16 node 2, childAt node' i = childAt node i :=
      fun i hi => hr32 _ (by omega)
    rw [← hn]
    refine index ((hr16 0 (by omega)).trans magic) ((hr16 6 (by omega)).trans depth) (hn ▸ fits)
      ?_ ?_ ?_ ?_
    · intro i hi
      rw [hn] at hi
      rw [hr16 _ (by omega), hchild i hi]
      exact plain i hi
    · intro i hi
      rw [hn] at hi
      rw [hkey fits i hi]
      exact within i hi
    · intro i hi
      rw [hn] at hi
      rw [hkey fits i (by omega), hkey fits (i + 1) hi]
      exact sorted i hi
    · intro i hi
      rw [hn] at hi
      have hnext : nextKey node' hi₀ i = nextKey node hi₀ i := by
        rw [nextKey, nextKey, hn]
        split
        · next hlt => exact hkey fits (i + 1) hlt
        · rfl
      rw [hkey fits i hi, hchild i hi, hnext]
      exact children i hi

/-- What a tree has is in its range. -/
theorem bounds (h : Tree s d size lo hi₀ node exts) :
    ∀ e ∈ exts, lo ≤ e.lblock ∧ e.lblock + e.len ≤ hi₀ := by
  induction h with
  | leaf magic depth fits plain within sorted =>
    intro e he
    obtain ⟨i, hi, rfl⟩ := List.mem_map.mp he
    exact within i (List.mem_range.mp hi)
  | @index d size lo hi₀ node sub magic depth fits plain within sorted children ih =>
    intro e he
    obtain ⟨i, hi, he⟩ := List.mem_flatMap.mp he
    have hi := List.mem_range.mp hi
    obtain ⟨hlo, hle⟩ := ih i hi e he
    have hnext : nextKey node hi₀ i ≤ hi₀ := by
      rw [nextKey]
      split
      · next hlt => exact (within (i + 1) hlt).2
      · exact le_rfl
    exact ⟨(within i hi).1.trans hlo, hle.trans hnext⟩

end Tree

/-! ## The way down -/

/-- What is the case for one of the first numbers at most is found where it is. -/
theorem findSome_range_eq {α : Type} {n : ℕ} {f : ℕ → Option α} {c : ℕ → Prop} {g : ℕ → α} {a : α}
    (hyes : ∀ i < n, c i → f i = some (g i)) (hno : ∀ i < n, ¬c i → f i = none)
    (hone : ∀ i j, i < n → j < n → c i → c j → i = j) :
    (List.range n).findSome? f = some a ↔ ∃ i < n, c i ∧ a = g i := by
  constructor
  · intro h
    obtain ⟨i, hi, hf⟩ := List.exists_of_findSome?_eq_some h
    have hi := List.mem_range.mp hi
    have hc : c i := by
      by_contra hn
      rw [hno i hi hn] at hf
      exact Option.some_ne_none a hf.symm
    exact ⟨i, hi, hc, Option.some.inj (hf.symm.trans (hyes i hi hc))⟩
  · rintro ⟨i, hi, hc, rfl⟩
    have hsome : ((List.range n).findSome? f).isSome := by
      rw [List.findSome?_isSome_iff]
      exact ⟨i, List.mem_range.mpr hi, by rw [hyes i hi hc]; rfl⟩
    obtain ⟨b, hb⟩ := Option.isSome_iff_exists.mp hsome
    obtain ⟨j, hj, hf⟩ := List.exists_of_findSome?_eq_some hb
    have hj := List.mem_range.mp hj
    have hcj : c j := by
      by_contra hn
      rw [hno j hj hn] at hf
      exact Option.some_ne_none b hf.symm
    rw [hb, ← hf, hone j i hj hi hcj hc, hyes i hi hc]

/-- **A leaf.** -/
theorem leafFind_eq_some {hi₀ : ℕ}
    (hplain : ∀ i < r16 node 2, r16 node (12 + i * 12 + 6) = 0 ∧
      r16 node (12 + i * 12 + 4) < 0x8000)
    (hwithin : ∀ i < r16 node 2, keyAt node i + (leafExtent node i).len ≤ hi₀) (hlt : hi₀ < 2 ^ 32)
    (hsorted : ∀ i j, i < j → j < r16 node 2 →
      keyAt node i + (leafExtent node i).len ≤ keyAt node j) :
    leafFind node lblock = some p ↔
      ∃ i < r16 node 2, (leafExtent node i).Has lblock ∧ p = (leafExtent node i).block lblock := by
  have hlen : ∀ i < r16 node 2, extLen node (12 + i * 12) = (leafExtent node i).len := by
    intro i hi
    have hand := Nat.and_two_pow_sub_one_eq_mod (r16 node (12 + i * 12 + 4)) 15
    rw [extLen]
    exact hand.trans (Nat.mod_eq_of_lt (hplain i hi).2)
  have hstart : ∀ i < r16 node 2, extStart node (12 + i * 12) = (leafExtent node i).start := by
    intro i hi
    rw [extStart, (hplain i hi).1, Nat.zero_mul, Nat.zero_or]
    rfl
  have hend : ∀ i < r16 node 2, u32 (r32 node (12 + i * 12) + extLen node (12 + i * 12)) =
      (leafExtent node i).lblock + (leafExtent node i).len := by
    intro i hi
    rw [hlen i hi]
    exact Nat.mod_eq_of_lt (lt_of_le_of_lt (hwithin i hi) hlt)
  refine findSome_range_eq (c := fun i => (leafExtent node i).Has lblock) (fun i hi hc => ?_)
    (fun i hi hn => ?_) fun i j hi hj hci hcj => ?_
  · have hkey : r32 node (12 + i * 12) = (leafExtent node i).lblock := rfl
    dsimp only
    rw [hend i hi, hstart i hi, hkey, if_neg (by rw [not_or, not_lt, not_le]; exact hc)]
    rfl
  · have hkey : r32 node (12 + i * 12) = (leafExtent node i).lblock := rfl
    dsimp only
    rw [hend i hi, hkey]
    refine if_pos ?_
    by_contra hor
    rw [not_or, not_lt, not_le] at hor
    exact hn hor
  · by_contra hne
    have hout : ∀ {i j}, i < j → j < r16 node 2 → (leafExtent node i).Has lblock →
        (leafExtent node j).Has lblock → False := by
      intro i j hij hj hci hcj
      have hle := hsorted i j hij hj
      have h₁ := hci.2
      have h₂ := hcj.1
      have hi : (leafExtent node i).lblock = keyAt node i := rfl
      have hj : (leafExtent node j).lblock = keyAt node j := rfl
      omega
    rcases lt_or_gt_of_ne hne with hij | hij
    · exact hout hij hj hci hcj
    · exact hout hij hi hcj hci

theorem indexFind_cons (node : Bytes) (lblock i : ℕ) (l : List ℕ) :
    indexFind node lblock (i :: l) =
      if lblock < keyAt node i then none
      else if nextKey node 0xFFFFFFFF i ≤ lblock then indexFind node lblock l
      else some (r16 node (12 + i * 12 + 8) * 2 ^ 16 ||| childAt node i) := by
  have hnext : nextKey node 0xFFFFFFFF i =
      if i + 1 < r16 node 2 then r32 node (12 + i * 12 + 12) else 0xFFFFFFFF := by
    rw [nextKey, keyAt, Nat.succ_mul, ← Nat.add_assoc]
  rw [hnext, indexFind]
  rfl

/-- Children whose range ends in front of the block are passed. -/
theorem indexFind_append {l₁ l₂ : List ℕ} (h : ∀ j ∈ l₁, keyAt node j ≤ lblock ∧
    nextKey node 0xFFFFFFFF j ≤ lblock) :
    indexFind node lblock (l₁ ++ l₂) = indexFind node lblock l₂ := by
  induction l₁ with
  | nil => rfl
  | cons j l₁ ih =>
    obtain ⟨hkey, hnext⟩ := h j (List.mem_cons_self ..)
    rw [List.cons_append, indexFind_cons, if_neg (Nat.not_lt.mpr hkey), if_pos hnext]
    exact ih fun k hk => h k (List.mem_cons_of_mem _ hk)

/-- Keys in order. -/
theorem keyAt_mono (hsorted : ∀ i, i + 1 < r16 node 2 → keyAt node i < keyAt node (i + 1)) {i j : ℕ}
    (hij : i ≤ j) (hj : j < r16 node 2) : keyAt node i ≤ keyAt node j := by
  induction j, hij using Nat.le_induction with
  | base => exact le_rfl
  | succ j _ ih => exact (ih (by omega)).trans (hsorted j hj).le

/-- **A child is found** whose range has the block. -/
theorem indexFind_eq (hsorted : ∀ i, i + 1 < r16 node 2 → keyAt node i < keyAt node (i + 1))
    (hplain : ∀ i < r16 node 2, r16 node (12 + i * 12 + 8) = 0) {i : ℕ} (hi : i < r16 node 2)
    (hkey : keyAt node i ≤ lblock) (hnext : lblock < nextKey node 0xFFFFFFFF i) :
    indexFind node lblock (List.range (r16 node 2)) = some (childAt node i) := by
  have hsplit : List.range (r16 node 2) =
      List.range i ++ (i :: List.range' (i + 1) (r16 node 2 - i - 1)) := by
    have happend := List.range'_append_1 (s := 0) (m := i) (n := r16 node 2 - i - 1 + 1)
    rw [Nat.zero_add, List.range'_succ] at happend
    rw [List.range_eq_range', List.range_eq_range', happend]
    congr 1
    omega
  rw [hsplit, indexFind_append]
  · rw [indexFind_cons, if_neg (Nat.not_lt.mpr hkey), if_neg (Nat.not_le.mpr hnext), hplain i hi,
      Nat.zero_mul, Nat.zero_or]
  · intro j hj
    have hj := List.mem_range.mp hj
    refine ⟨(keyAt_mono hsorted hj.le hi).trans hkey, ?_⟩
    rw [nextKey, if_pos (by omega)]
    exact (keyAt_mono hsorted hj hi).trans hkey

/-- In front of the first key there is nothing. -/
theorem indexFind_eq_none (h : 0 < r16 node 2 → lblock < keyAt node 0) :
    indexFind node lblock (List.range (r16 node 2)) = none := by
  cases hn : r16 node 2 with
  | zero => rfl
  | succ n =>
    rw [List.range_succ_eq_map, indexFind_cons, if_pos (h (by omega))]

/-- Behind the first key there is a child for the block. -/
theorem exists_child {n hi₀ : ℕ} (hn : n = r16 node 2) (hpos : 0 < n) (hkey : keyAt node 0 ≤ lblock)
    (hlt : lblock < hi₀) : ∃ i < n, keyAt node i ≤ lblock ∧ lblock < nextKey node hi₀ i := by
  have hspec :=
    Nat.findGreatest_spec (P := fun i => keyAt node i ≤ lblock) (Nat.zero_le (n - 1)) hkey
  have hle := Nat.findGreatest_le (P := fun i => keyAt node i ≤ lblock) (n - 1)
  have hgreatest := fun k => Nat.findGreatest_is_greatest (P := fun i => keyAt node i ≤ lblock)
    (n := n - 1) (k := k)
  generalize Nat.findGreatest (fun i => keyAt node i ≤ lblock) (n - 1) = i at hspec hle hgreatest
  refine ⟨i, by omega, hspec, ?_⟩
  rw [nextKey, ← hn]
  split
  · exact Nat.lt_of_not_le (hgreatest (i + 1) (by omega) (by omega))
  · exact hlt

/-- **The way down a tree** ends where the block is. -/
theorem Tree.treeWalk_eq_some {d size lo hi₀ fuel : ℕ} {exts : List Extent}
    (h : Tree s d size lo hi₀ node exts) (hhi : hi₀ ≤ 0xFFFFFFFF) (hl : lblock < 0xFFFFFFFF)
    (hfuel : d < fuel) :
    s.treeWalk lblock fuel node = some p ↔ ∃ e ∈ exts, e.Has lblock ∧ p = e.block lblock := by
  induction d generalizing size lo hi₀ fuel node exts with
  | zero =>
    obtain ⟨fuel, rfl⟩ := Nat.exists_eq_add_of_lt hfuel
    cases h with
    | leaf magic depth fits plain within sorted =>
      rw [treeWalk, if_pos magic, if_pos depth,
        leafFind_eq_some plain (fun i hi => (within i hi).2) (by omega) sorted]
      constructor
      · rintro ⟨i, hi, hp⟩
        exact ⟨_, List.mem_map_of_mem (List.mem_range.mpr hi), hp⟩
      · rintro ⟨e, he, hp⟩
        obtain ⟨i, hi, rfl⟩ := List.mem_map.mp he
        exact ⟨i, List.mem_range.mp hi, hp⟩
  | succ d ih =>
    obtain ⟨fuel, rfl⟩ : ∃ k, fuel = k + 1 := ⟨fuel - 1, by omega⟩
    cases h with
    | @index _ _ _ _ _ sub magic depth fits plain within sorted children =>
      rw [treeWalk, if_pos magic, if_neg (by omega)]
      have hbounds : ∀ i < r16 node 2, ∀ e ∈ sub i, keyAt node i ≤ e.lblock ∧
          e.lblock + e.len ≤ nextKey node hi₀ i := fun i hi => (children i hi).bounds
      by_cases hfirst : 0 < r16 node 2 ∧ keyAt node 0 ≤ lblock
      · obtain ⟨i, hi, hkey, hnext⟩ := exists_child rfl hfirst.1 hfirst.2 (hl : lblock < 0xFFFFFFFF)
        obtain ⟨-, hlt⟩ := plain i hi
        rw [indexFind_eq sorted (fun i hi => (plain i hi).1) hi hkey hnext, Option.bind_some,
          if_pos hlt]
        have hinB1 : ∀ a < s.geo.bs, s.inB1 (childAt node i) a = s.disk (childAt node i) a := by
          intro a ha
          have hcopy := memcpy_of_lt (m := s.b1) (p := 0) (s := s.disk (childAt node i)) (q := 0) ha
          rwa [Nat.zero_add] at hcopy
        have hnexthi : nextKey node hi₀ i ≤ 0xFFFFFFFF := by
          rw [nextKey]
          split
          · next hlt => exact (within (i + 1) hlt).2.trans hhi
          · exact hhi
        rw [ih ((children i hi).congr hinB1) hnexthi (by omega)]
        refine exists_congr fun e => and_congr_left fun hp => ?_
        constructor
        · exact fun he => List.mem_flatMap.mpr ⟨i, List.mem_range.mpr hi, he⟩
        · intro he
          obtain ⟨j, hj, he⟩ := List.mem_flatMap.mp he
          have hj := List.mem_range.mp hj
          obtain ⟨hlo, hle⟩ := hbounds j hj e he
          obtain ⟨h₁, h₂⟩ := hp.1
          -- the block is in one range only
          have hij : i = j := by
            rcases lt_trichotomy i j with hij | hij | hij
            · have hmono : keyAt node (i + 1) ≤ keyAt node j := keyAt_mono sorted hij hj
              rw [nextKey, if_pos (by omega)] at hnext
              omega
            · exact hij
            · have hmono : keyAt node (j + 1) ≤ keyAt node i := keyAt_mono sorted hij hi
              rw [nextKey, if_pos (by omega)] at hle
              omega
          rwa [hij]
      · have hfirst : 0 < r16 node 2 → lblock < keyAt node 0 := by
          intro hpos
          by_contra hn
          exact hfirst ⟨hpos, Nat.le_of_not_lt hn⟩
        rw [indexFind_eq_none hfirst, Option.bind_none]
        constructor
        · exact fun hn => absurd hn.symm (Option.some_ne_none p)
        · rintro ⟨e, he, hp, -⟩
          obtain ⟨j, hj, he⟩ := List.mem_flatMap.mp he
          have hj := List.mem_range.mp hj
          have hlo := (hbounds j hj e he).1
          have hmono := keyAt_mono sorted (Nat.zero_le j) hj
          have := hfirst (by omega)
          have := hp.1
          omega


/-! ## Chains of pointers -/

/-- A pointer that is not zero and points into the volume. -/
def Points (s : Fs) (p : ℕ) : Prop := p ≠ 0 ∧ p < s.geo.blocks

/-- The pointers for a logical block lead to `p`: it is one of the twelve in the image, or in the
block of pointers behind these, or in a block of a block of pointers. -/
inductive Leads (s : Fs) (img : Bytes) (lblock : ℕ) : ℕ → Prop
  | direct {p : ℕ} (hl : lblock < 12) (hp : p = r32 img (0x28 + lblock * 4)) (here : s.Points p) :
      Leads s img lblock p
  | single {ind p : ℕ} (hl : 12 ≤ lblock ∧ lblock - 12 < s.geo.bs / 4)
      (hind : ind = r32 img (0x28 + 12 * 4)) (there : s.Points ind)
      (hp : p = r32 (s.disk ind) ((lblock - 12) * 4)) (here : s.Points p) : Leads s img lblock p
  | double {dbl sn p : ℕ} (hl : 12 + s.geo.bs / 4 ≤ lblock)
      (hlt : lblock - 12 - s.geo.bs / 4 < s.geo.bs / 4 * (s.geo.bs / 4))
      (hdbl : dbl = r32 img (0x28 + 13 * 4)) (first : s.Points dbl)
      (hsn : sn = r32 (s.disk dbl) ((lblock - 12 - s.geo.bs / 4) / (s.geo.bs / 4) * 4))
      (second : s.Points sn)
      (hp : p = r32 (s.disk sn) ((lblock - 12 - s.geo.bs / 4) % (s.geo.bs / 4) * 4))
      (here : s.Points p) : Leads s img lblock p

theorem target_eq_some {q : ℕ} : s.target p = some q ↔ q = p ∧ s.Points q := by
  rw [target]
  split
  · next h => exact ⟨fun hq => Option.some.inj hq ▸ ⟨rfl, h⟩, fun hq => congrArg some hq.1.symm⟩
  · next h =>
      exact ⟨fun hq => absurd hq.symm (Option.some_ne_none q), fun hq => absurd (hq.1 ▸ hq.2) h⟩

/-- A pointer of a block is read as it is. -/
theorem r32_inB1 {k : ℕ} (hk : k < s.geo.bs / 4) : r32 (s.inB1 blk) (k * 4) = r32 (s.disk blk)
    (k * 4) := by
  refine r32_congr fun i hi => ?_
  have hcopy := memcpy_of_lt (m := s.b1) (p := 0) (s := s.disk blk) (q := 0) (i := k * 4 + i)
    (n := s.geo.bs) (by omega)
  rwa [Nat.zero_add] at hcopy

/-- **A chain of pointers** is followed to its end. -/
theorem indirect_eq_some : s.indirect img lblock = some p ↔ Leads s img lblock p := by
  rw [indirect]
  generalize hper : s.geo.bs / 4 = per
  by_cases hdirect : lblock < 12
  · rw [if_pos hdirect, target_eq_some]
    constructor
    · exact fun h => .direct hdirect h.1 h.2
    · intro h
      cases h with
      | direct _ hp here => exact ⟨hp, here⟩
      | single hl => omega
      | double hl => omega
  rw [if_neg hdirect]
  by_cases hsingle : lblock - 12 < per
  · have hread : ∀ ind, r32 (s.inB1 ind) ((lblock - 12) * 4) =
      r32 (s.disk ind) ((lblock - 12) * 4) :=
      fun ind => r32_inB1 (hper ▸ hsingle)
    rw [if_pos hsingle, Option.bind_eq_some_iff]
    simp only [target_eq_some, hread]
    constructor
    · rintro ⟨ind, ⟨hind, there⟩, hp, here⟩
      exact .single (by omega) hind there hp here
    · intro h
      cases h with
      | direct hl => omega
      | single _ hind there hp here => exact ⟨_, ⟨hind, there⟩, hp, here⟩
      | double hl => omega
  rw [if_neg hsingle]
  by_cases hdouble : lblock - 12 - per < per * per
  · have hpos : 0 < per := Nat.pos_of_ne_zero fun h => by simp [h] at hdouble
    have hread : ∀ {k} blk, k < per → r32 (s.inB1 blk) (k * 4) = r32 (s.disk blk) (k * 4) :=
      fun blk hk => r32_inB1 (hper ▸ hk)
    have hdiv : (lblock - 12 - per) / per < per := Nat.div_lt_of_lt_mul hdouble
    have hmod : (lblock - 12 - per) % per < per := Nat.mod_lt _ hpos
    rw [if_pos hdouble, Option.bind_eq_some_iff]
    simp only [Option.bind_eq_some_iff, target_eq_some, hread _ hdiv, hread _ hmod]
    constructor
    · rintro ⟨dbl, ⟨hdbl, first⟩, sn, ⟨hsn, second⟩, hp, here⟩
      subst hper
      exact .double (by omega) hdouble hdbl first hsn second hp here
    · intro h
      subst hper
      cases h with
      | direct hl => omega
      | single hl => omega
      | double _ _ hdbl first hsn second hp here =>
        exact ⟨_, ⟨hdbl, first⟩, _, ⟨hsn, second⟩, hp, here⟩
  · rw [if_neg hdouble]
    constructor
    · exact fun h => absurd h.symm (Option.some_ne_none p)
    · intro h
      cases h with
      | direct hl => omega
      | single hl => omega
      | double hl hlt => exact absurd (hper ▸ hlt) hdouble

/-! ## The two layouts -/

/-- **`map_lblock` is right** for a tree of extents that is in order and for any pointers. -/
theorem mapLblock_correct (s : Fs) :
    (r32 s.ino 0x20 &&& kExtentsFl ≠ 0 → ∀ d ≤ kMaxDepth, ∀ exts,
      Tree s d 60 0 0xFFFFFFFF (fun a => s.ino (0x28 + a)) exts → ∀ lblock < 0xFFFFFFFF, ∀ p,
        (exec (mapLblock lblock) s).1 = some p ↔ ∃ e ∈ exts, e.Has lblock ∧ p = e.block lblock) ∧
    (r32 s.ino 0x20 &&& kExtentsFl = 0 → ∀ lblock p,
      (exec (mapLblock lblock) s).1 = some p ↔ Leads s s.ino lblock p) := by
  constructor
  · intro hflag d hd exts htree lblock hl p
    rw [exec_mapLblock, blockOf, if_pos hflag]
    exact htree.treeWalk_eq_some le_rfl hl (Nat.lt_succ_of_le hd)
  · intro hflag lblock p
    rw [exec_mapLblock, blockOf, if_neg (not_not_intro hflag)]
    exact indirect_eq_some

/-- A root with one child, block 10. -/
def rootImage : Bytes :=
  w32 (w16 (w16 (w16 (w32 (fun _ => 0) 0x20 kExtentsFl) 0x28 kExtMagic) 0x2A 1) 0x2E 1) 0x38 10

/-- A leaf with two extents, for the logical blocks 5 to 7 and 9. -/
def leafNode : Bytes :=
  w32 (w16 (w32 (w32 (w16 (w32 (w16 (w16 (fun _ => 0) 0 kExtMagic) 2 2) 12 5) 16 3) 20 11) 24 9) 28
    1) 32 8

/-- The volume with a file, and another inode in `g_ino`. -/
def treed : Fs := { filed with ino := rootImage, disk := Function.update filedDisk 10 leafNode }

theorem tree_treed : Tree treed 1 60 0 0xFFFFFFFF (fun a => treed.ino (0x28 + a))
    ((List.range 1).flatMap fun _ => (List.range 2).map (leafExtent leafNode)) := by
  have hleaf : Tree treed 0 1024 0 0xFFFFFFFF leafNode
      ((List.range 2).map (leafExtent leafNode)) := by
    have hn : r16 leafNode 2 = 2 := by decide +kernel
    have hsorted : ∀ j < 2, ∀ i < j, keyAt leafNode i + (leafExtent leafNode i).len ≤ keyAt
        leafNode j := by
      decide +kernel
    rw [← hn]
    refine .leaf (by decide +kernel) (by decide +kernel) (by decide +kernel) (by decide +kernel)
      (by decide +kernel) fun i j hij hj => ?_
    exact hsorted j (hn ▸ hj) i hij
  generalize hroot : (fun a => treed.ino (0x28 + a)) = root
  have hn : r16 root 2 = 1 := hroot ▸ by decide +kernel
  have hkey : keyAt root 0 = 0 := hroot ▸ by decide +kernel
  have hchild : childAt root 0 = 10 := hroot ▸ by decide +kernel
  have hnext : nextKey root 0xFFFFFFFF 0 = 0xFFFFFFFF := by rw [nextKey, hn, if_neg (by omega)]
  have hdisk : treed.disk 10 = leafNode := by
    change Function.update filedDisk 10 leafNode 10 = leafNode
    exact Function.update_self ..
  have hmagic : r16 root 0 = kExtMagic := hroot ▸ by decide +kernel
  have hdepth : r16 root 6 = 1 := hroot ▸ by decide +kernel
  have hplain : ∀ i < r16 root 2, r16 root (12 + i * 12 + 8) = 0 ∧
      childAt root i < treed.geo.blocks := hroot ▸ by decide +kernel
  have hrange : List.range 1 = List.range (r16 root 2) := by rw [hn]
  rw [hrange]
  refine .index hmagic hdepth (by omega) hplain (fun i hi => ?_) (fun i hi => ?_)
    fun i hi => ?_
  · obtain rfl : i = 0 := by omega
    rw [hkey]
    decide
  · omega
  · obtain rfl : i = 0 := by omega
    rw [hkey, hnext, hchild, hdisk]
    exact hleaf

/-- Logical block 6 is looked up through the root and the leaf. -/
theorem mapLblock_treed : (exec (mapLblock 6) treed).1 = some 12 ↔
    ∃ e ∈ (List.range 1).flatMap fun _ => (List.range 2).map (leafExtent leafNode),
      e.Has 6 ∧ 12 = e.block 6 :=
  (mapLblock_correct treed).1 (by decide +kernel) 1 (by decide) _ tree_treed 6 (by decide) 12

end Fs

end Aurisys
