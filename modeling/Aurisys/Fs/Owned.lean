import Aurisys.Fs.Prims
import Aurisys.Lib.Ownership

/-!
# Who owns which block

The owners are the extents of the inodes, and what is kept back are the metadata. While a file is
being written the inode image in `g_ino` is ahead of the table, and while one is being replaced or
removed the table is ahead of the bitmap. So the owners are read off a table that is given along
with the state: the one on the disk, or that one with another image in one place. Blocks that have
been taken and are in no image yet, or are in none any more, are spare.

## Main definitions

* `Held` — the blocks of a table of images are owned, and some blocks are spare
* `Sound` — those of the table on the disk are, and none is spare
* `Valid` — those of the inodes in use are
* `Checked` — the same, as far as it can be found out by going through the volume

## Main results

* `Held.taken`, `Held.given`, `Held.adopt`, `Held.replace`
* `Checked.valid`
-/

namespace Aurisys

open Bytes Fallible

namespace Fs

/-- No block is spare. -/
def Nothing : ℕ → Prop := fun _ => False

/-- The blocks of a run. -/
def Run (first n : ℕ) : ℕ → Prop := fun b => first ≤ b ∧ b < first + n

/-- The extents of the images in `T` own their blocks, and the blocks in `X` are spare. -/
structure Held (s : Fs) (T : ℕ → Bytes) (X : ℕ → Prop) : Prop where
  /-- The volume is laid out right. -/
  geo : s.geo.Ok
  /-- The search for free blocks does not wrap. -/
  hint : s.hint + s.geo.blocks ≤ 2 ^ 32
  /-- Every image has its extents in it. -/
  flat : ∀ k, Flat s.geo (T k)
  /-- A block in use has one owner at most. -/
  own : Ownership s.geo.IsMeta s.Used (fun k b => Covers (T k.1) k.2 b : ℕ × ℕ → ℕ → Prop) X

/-- The extents of the inodes on the disk own their blocks. -/
def Sound (s : Fs) : Prop := Held s s.inodes Nothing

/-- The images of the inodes in use. -/
def table (s : Fs) (k : ℕ) : Bytes := if s.Live k then s.inodes k else fun _ => 0

/-- The extents of the inodes in use own their blocks. What is in the other slots does not
matter. -/
def Valid (s : Fs) : Prop := Held s s.table Nothing

variable {s s' : Fs} {T T' : ℕ → Bytes} {X X' : ℕ → Prop} {j ino first n : ℕ} {img : Bytes}

/-- The image of an inode that is not in use. -/
theorem flat_zero (g : Geometry) : Flat g fun _ => 0 where
  depth := rfl
  few := by decide
  vacant _ _ _ _ _ := rfl
  flagged hm := by
    have h : ¬(IsFile (fun _ => 0) ∨ IsDir fun _ => 0) := by decide
    exact absurd hm h
  bounds i hi := absurd hi (Nat.not_lt_zero i)

theorem not_covers_of_entries (h : r16 img 0x2A = 0) (i b : ℕ) : ¬Covers img i b :=
  fun hc => absurd hc.1 (by omega)

theorem not_covers_zero (i b : ℕ) : ¬Covers (fun _ => 0) i b := not_covers_of_entries rfl i b

namespace Held

variable (h : Held s T X)

include h

theorem blocks_lt : s.geo.blocks < 2 ^ 32 := by
  have := h.geo.blocks_le
  omega

/-- What the bitmap, the layout and the hint say is all that counts of the state. -/
theorem frame (hgeo : s'.geo = s.geo) (hhint : s'.hint = s.hint)
    (hbbb : s'.disk s.geo.bbb = s.disk s.geo.bbb) : Held s' T X where
  geo := hgeo ▸ h.geo
  hint := by rw [hgeo, hhint]; exact h.hint
  flat := hgeo ▸ h.flat
  own := by
    have hu : s'.Used = s.Used := by
      funext b
      rw [Used, Used, hgeo, hbbb]
    rw [hgeo, hu]
    exact h.own

/-- What the map of the images says is all that counts of the table. -/
theorem congr (hT : ∀ k, SameMap (T' k) (T k)) : Held s T' X where
  geo := h.geo
  hint := h.hint
  flat k := (hT k).flat (h.flat k)
  own := h.own.drop (fun k _ hc => ((hT k.1).covers (h.flat k.1)).mp hc) fun _ => id

/-- The spare blocks are forgotten. -/
theorem forget : Held s T Nothing :=
  ⟨h.geo, h.hint, h.flat, h.own.drop (fun _ _ => id) fun _ => False.elim⟩

theorem not_meta {k i b : ℕ} (hc : Covers (T k) i b) : ¬s.geo.IsMeta b := h.own.own_kept (k, i) b hc

theorem spare_not_meta {b : ℕ} (hb : X b) : ¬s.geo.IsMeta b := h.own.spare_kept b hb

/-- What the map of an image leads to holds no metadata. -/
theorem mapFlat_not_meta {k lblock phys : ℕ} (hm : mapFlat (T k) lblock = some phys) :
    ¬s.geo.IsMeta phys := by
  obtain ⟨i, hi⟩ := covers_of_mapFlat (h.flat k) h.blocks_lt hm
  exact h.not_meta hi

/-- What the map of an image leads to is on the volume. -/
theorem mapFlat_lt {k lblock phys : ℕ} (hm : mapFlat (T k) lblock = some phys) :
    phys < s.geo.blocks := (h.flat k).mapFlat_lt h.blocks_lt hm

/-- **No two places lead to one block.** -/
theorem mapFlat_inj {k k' b b' phys : ℕ} (hb : mapFlat (T k) b = some phys)
    (hb' : mapFlat (T k') b' = some phys) : k = k' ∧ b = b' := by
  obtain ⟨i, hc, hp⟩ := mapFlat_spec (h.flat k) h.blocks_lt hb
  obtain ⟨i', hc', hp'⟩ := mapFlat_spec (h.flat k') h.blocks_lt hb'
  obtain ⟨rfl, rfl⟩ := Prod.mk.inj (h.own.unique (k, i) (k', i') phys hc hc')
  exact ⟨rfl, by omega⟩

/-- There are no more blocks in a row than the volume has. -/
theorem row_le {k a m : ℕ} (hrow : ∀ i < m, mapFlat (T k) (a + i) ≠ none) : m ≤ s.geo.blocks := by
  have hphys : ∀ i : ℕ, ∃ p, i < m → mapFlat (T k) (a + i) = some p := by
    intro i
    by_cases hi : i < m
    · obtain ⟨p, hp⟩ := Option.ne_none_iff_exists'.mp (hrow i hi)
      exact ⟨p, fun _ => hp⟩
    · exact ⟨0, fun hn => absurd hn hi⟩
  choose f hf using hphys
  have hmaps : Set.MapsTo f (Finset.range m) (Finset.range s.geo.blocks) := by
    intro i hi
    exact Finset.mem_coe.mpr (Finset.mem_range.mpr
      (h.mapFlat_lt (hf i (Finset.mem_range.mp (Finset.mem_coe.mp hi)))))
  have hinj : Set.InjOn f (Finset.range m) := by
    intro i hi i' hi' he
    have h₁ := hf i (Finset.mem_range.mp (Finset.mem_coe.mp hi))
    have h₂ := hf i' (Finset.mem_range.mp (Finset.mem_coe.mp hi'))
    have := (h.mapFlat_inj h₁ (he.symm ▸ h₂)).2
    omega
  have hcard := Finset.card_le_card_of_injOn f hmaps hinj
  rwa [Finset.card_range, Finset.card_range] at hcard

theorem used_zero : s.Used 0 := h.own.kept_used 0 (.inl rfl)

/-- **A data block is written.** -/
theorem setDisk {b : ℕ} (d : Bytes) (hb : ¬s.geo.IsMeta b) : Held (s.setDisk b d) T X := by
  refine h.frame rfl rfl (Function.update_of_ne ?_ _ _)
  rintro rfl
  exact hb (Geometry.Ok.single_meta Geometry.Ok.bbb_mem)

theorem freeRun (hrun : s.freeRun n = some first) :
    0 < n ∧ first + n ≤ s.geo.blocks ∧ ∀ b, first ≤ b → b < first + n → ¬s.Used b :=
  freeRun_spec h.geo h.used_zero h.hint hrun

/-- A bit of the volume is in the bitmap. -/
theorem le_bits {b : ℕ} (hb : b ≤ s.geo.blocks) : b ≤ 8 * s.geo.bs := hb.trans h.geo.blocks

/-- **A run has been taken**: it is spare. -/
theorem taken (hrun : s.freeRun n = some first) :
    Held (s.taken first n) T fun b => Run first n b ∨ X b := by
  obtain ⟨hn, hle, hclear⟩ := h.freeRun hrun
  have hdisk := taken_disk (h.le_bits hle)
  refine ⟨h.geo, ?_, h.flat, ?_⟩
  · have hlt : u32 (first + n) % s.geo.blocks < s.geo.blocks := Nat.mod_lt _ (by omega)
    have := h.geo.blocks_le
    change u32 (first + n) % s.geo.blocks + s.geo.blocks ≤ 2 ^ 32
    omega
  · refine h.own.take (fun b hb => hclear b hb.1 hb.2) fun b => ?_
    rw [Used, hdisk]
    change (Function.update s.disk s.geo.bbb _ s.geo.bbb).bit b = true ↔ _
    rw [Function.update_self, bit_setBits, Bool.or_eq_true, decide_eq_true_eq]
    exact Iff.rfl

/-- **Spare blocks are given back.** -/
theorem given (hle : first + n ≤ s.geo.blocks) (hX : ∀ b, Run first n b → X b) :
    Held (s.given first n) T fun b => X b ∧ ¬Run first n b := by
  have hdisk := given_disk (h.le_bits hle)
  refine ⟨h.geo, h.hint, h.flat, h.own.give hX fun b hb hn => ?_⟩
  rw [Used, hdisk]
  change (Function.update s.disk s.geo.bbb _ s.geo.bbb).bit b = true
  rw [Function.update_self, bit_clearBits_of_not hn]
  exact hb

/-- **An image gets what is spare.** -/
theorem adopt (hflat : Flat s.geo img)
    (hcov : ∀ i b, Covers img i b → Covers (T j) i b ∨ i = n ∧ X b) :
    Held s (Function.update T j img) Nothing := by
  refine ⟨h.geo, h.hint, fun k => ?_, h.own.adopt (k := (j, n)) fun k b hb => ?_⟩
  · by_cases hk : k = j
    · rw [hk, Function.update_self]
      exact hflat
    · rw [Function.update_of_ne hk]
      exact h.flat k
  · by_cases hk : k.1 = j
    · rw [hk, Function.update_self] at hb
      rcases hcov _ _ hb with hc | ⟨hi, hx⟩
      · exact .inl (hk ▸ hc)
      · exact .inr ⟨Prod.ext hk hi, hx⟩
    · rw [Function.update_of_ne hk] at hb
      exact .inl hb

/-- An image with the same map, or less of it. -/
theorem update (hflat : Flat s.geo img) (hcov : ∀ i b, Covers img i b → Covers (T j) i b) :
    Held s (Function.update T j img) X := by
  refine ⟨h.geo, h.hint, fun k => ?_, h.own.drop (fun k b hb => ?_) fun _ => id⟩
  · by_cases hk : k = j
    · rw [hk, Function.update_self]
      exact hflat
    · rw [Function.update_of_ne hk]
      exact h.flat k
  · by_cases hk : k.1 = j
    · rw [hk, Function.update_self] at hb
      exact hk ▸ hcov _ _ hb
    · rw [Function.update_of_ne hk] at hb
      exact hb

theorem updateMap (hmap : SameMap img (T j)) : Held s (Function.update T j img) X :=
  h.update (hmap.flat (h.flat j)) fun _ _ => (hmap.covers (h.flat j)).mp

/-- **The image of a new extent** owns it. -/
theorem addExtent {l : ℕ} (hrun : X = Run first n) (he : r16 (T j) 0x2A < 4)
    (hn : 0 < n ∧ n ≤ 32767)
    (hle : first + n ≤ s.geo.blocks) :
    Held s (Function.update T j (addExtent (T j) l n first)) Nothing := by
  have hlt := h.blocks_lt
  refine h.adopt ((h.flat j).addExtent he hn hle hlt) (n := r16 (T j) 0x2A) fun i b hc => ?_
  rw [hrun]
  exact (covers_addExtent (h.flat j) he hn.2 (by omega)).mp hc

omit h in
/-- **An image takes the place of another.** It was kept at the number 0, which is no inode; what
the other one had is spare. -/
theorem replace (h : Held s (Function.update T 0 img) Nothing) (hj : j ≠ 0)
    (h0 : ∀ i b, ¬Covers (T 0) i b) (hf0 : Flat s.geo (T 0)) :
    Held s (Function.update T j img) fun b => ∃ i, Covers (T j) i b := by
  have himg : Flat s.geo img := by
    have := h.flat 0
    rwa [Function.update_self] at this
  refine ⟨h.geo, h.hint, fun k => ?_, ?_⟩
  · by_cases hk : k = j
    · rw [hk, Function.update_self]
      exact himg
    · rw [Function.update_of_ne hk]
      by_cases hk0 : k = 0
      · rw [hk0]
        exact hf0
      · have := h.flat k
        rwa [Function.update_of_ne hk0] at this
  · have hinj : Function.Injective fun k : ℕ × ℕ => (Equiv.swap 0 j k.1, k.2) := by
      intro a b hab
      have h₁ := (Prod.ext_iff.mp hab).1
      have h₂ := (Prod.ext_iff.mp hab).2
      exact Prod.ext ((Equiv.swap 0 j).injective h₁) h₂
    refine h.own.relabel hinj (fun k b hb => ?_) fun b hb => ?_
    · change Covers (Function.update T 0 img (Equiv.swap 0 j k.1)) k.2 b
      by_cases hk : k.1 = j
      · rw [hk, Function.update_self] at hb
        rw [hk, Equiv.swap_apply_right, Function.update_self]
        exact hb
      · rw [Function.update_of_ne hk] at hb
        have hk0 : k.1 ≠ 0 := fun hk0 => h0 k.2 b (hk0 ▸ hb)
        rw [Equiv.swap_apply_of_ne_of_ne hk0 hk, Function.update_of_ne hk0]
        exact hb
    · obtain ⟨i, hi⟩ := hb
      refine ⟨(j, i), ?_, fun k hk he => ?_⟩
      · change Covers (Function.update T 0 img j) i b
        rw [Function.update_of_ne hj]
        exact hi
      · have hk0 : k.1 = 0 := by
          have h₁ : Equiv.swap 0 j k.1 = j := (Prod.ext_iff.mp he).1
          rw [← Equiv.swap_apply_left 0 j] at h₁
          exact (Equiv.swap 0 j).injective h₁
        rw [Function.update_of_ne (by omega), hk0] at hk
        exact h0 k.2 b hk

omit h in
/-- **An image is blanked**: what it had is spare. -/
theorem blank (h : Held s T Nothing) (hj : j ≠ 0) (h0 : T 0 = fun _ => 0) :
    Held s (Function.update T j fun _ => 0) fun b => ∃ i, Covers (T j) i b := by
  have hT : Function.update T 0 (fun _ => 0) = T := by rw [← h0, Function.update_eq_self]
  refine replace (hT.symm ▸ h) hj (fun i b => ?_) ?_
  · rw [h0]
    exact not_covers_zero i b
  · rw [h0]
    exact flat_zero _

end Held

theorem table_of_live (h : s.Live ino) : s.table ino = s.inodes ino := if_pos h

theorem inodes_zero (s : Fs) : s.inodes 0 = fun _ => 0 :=
  inodes_of_not fun h => absurd h.1 (lt_irrefl 0)

/-! ## Checking a volume -/

instance (g : Geometry) (img : Bytes) : Decidable (Flat g img) :=
  decidable_of_iff
    (r16 img 0x2E = 0 ∧ r16 img 0x2A ≤ 4 ∧
      (∀ i < 4, r16 img 0x2A ≤ i → ∀ j < 12, img (0x34 + i * 12 + j) = 0) ∧
      (IsFile img ∨ IsDir img → r32 img 0x20 &&& kExtentsFl ≠ 0) ∧
      ∀ i < r16 img 0x2A, 0 < (extentAt img i).2 ∧
      (extentAt img i).1 + (extentAt img i).2 ≤ g.blocks)
    ⟨fun h => ⟨h.1, h.2.1, h.2.2.1, h.2.2.2.1, h.2.2.2.2⟩,
      fun h => ⟨h.depth, h.few, h.vacant, h.flagged, h.bounds⟩⟩

instance (img : Bytes) (i b : ℕ) : Decidable (Covers img i b) :=
  inferInstanceAs (Decidable (_ ∧ _ ∧ _))

instance (s : Fs) (b : ℕ) : Decidable (s.Used b) := inferInstanceAs (Decidable (_ = true))

/-- No other extent covers the block. -/
def Alone (s : Fs) (k i b : ℕ) : Prop :=
  ∀ k' < s.geo.inodes + 1, ∀ i' < r16 (s.table k') 0x2A, Covers (s.table k') i' b → k = k' ∧ i = i'

instance (s : Fs) (k i b : ℕ) : Decidable (Alone s k i b) :=
  inferInstanceAs (Decidable (∀ _ < _, ∀ _ < _, Covers _ _ _ → _))

/-- The blocks of an inode in use are marked, hold no metadata and belong to nobody else. -/
def Proper (s : Fs) (k : ℕ) : Prop :=
  ∀ i < r16 (s.table k) 0x2A, ∀ b < s.geo.blocks, Covers (s.table k) i b →
    s.Used b ∧ ¬s.geo.IsMeta b ∧ Alone s k i b

instance (s : Fs) (k : ℕ) : Decidable (Proper s k) :=
  inferInstanceAs (Decidable (∀ _ < _, ∀ _ < _, Covers _ _ _ → _))

/-- What is found when a volume is gone through, inode by inode and block by block. -/
structure Checked (s : Fs) : Prop where
  /-- The search for free blocks does not wrap. -/
  hint : s.hint + s.geo.blocks ≤ 2 ^ 32
  /-- The metadata are marked as in use. -/
  kept : ∀ b < s.geo.blocks, s.geo.IsMeta b → s.Used b
  /-- Every image has its extents in it. -/
  flat : ∀ k < s.geo.inodes + 1, Flat s.geo (s.table k)
  /-- What an inode has is marked, and is no other's. -/
  own : ∀ k < s.geo.inodes + 1, Proper s k

instance (s : Fs) : Decidable (Checked s) :=
  decidable_of_iff
    (s.hint + s.geo.blocks ≤ 2 ^ 32 ∧ (∀ b < s.geo.blocks, s.geo.IsMeta b → s.Used b) ∧
      (∀ k < s.geo.inodes + 1, Flat s.geo (s.table k)) ∧ ∀ k < s.geo.inodes + 1, Proper s k)
    ⟨fun h => ⟨h.1, h.2.1, h.2.2.1, h.2.2.2⟩, fun h => ⟨h.hint, h.kept, h.flat, h.own⟩⟩

theorem table_of_not (h : ¬s.geo.IsIno j) : s.table j = fun _ => 0 := by
  rw [table, inodes_of_not h, ite_self]

/-- **A volume on which everything is in order** is well formed. -/
theorem Checked.valid (h : Checked s) (hg : s.geo.Ok) : Valid s := by
  obtain ⟨hhint, hkept, hflat, hown⟩ := h
  have hout : ∀ k, ¬k < s.geo.inodes + 1 → s.table k = fun _ => 0 :=
    fun k hk => table_of_not fun hi => hk (Nat.lt_succ_of_le hi.2)
  have hflat' : ∀ k, Flat s.geo (s.table k) := by
    intro k
    by_cases hk : k < s.geo.inodes + 1
    · exact hflat k hk
    · rw [hout k hk]
      exact flat_zero _
  have hin : ∀ {k i b}, Covers (s.table k) i b → k < s.geo.inodes + 1 ∧ b < s.geo.blocks := by
    intro k i b hc
    refine ⟨by_contra fun hk => ?_, lt_of_lt_of_le hc.2.2 ((hflat' k).bounds i hc.1).2⟩
    rw [hout k hk] at hc
    exact not_covers_zero i b hc
  have hone : ∀ {k i b}, Covers (s.table k) i b → _ :=
    fun {k i b} hc => hown k (hin hc).1 i hc.1 b (hin hc).2 hc
  refine ⟨hg, hhint, hflat', fun b hb => hkept b (hg.meta_lt hb) hb, fun k b hc => (hone hc).1,
    fun k b hc => (hone hc).2.1, fun k k' b hc hc' => ?_, fun _ hb => hb.elim, fun _ hb => hb.elim,
    fun _ _ hb => hb.elim⟩
  have heq := (hone hc).2.2 k'.1 (hin hc').1 k'.2 hc'.1 hc'
  exact Prod.ext heq.1 heq.2

/-! ## A volume with a file -/

/-- The image of a file with three bytes, in block 8. -/
def fileImage : Bytes := w32 (addExtent (freshFile 3) 0 1 8) 0x1C 2

/-- The blocks of the small volume when there is a file `a` in the root, number 12. -/
def filedDisk (b : ℕ) : Bytes :=
  if b = 2 then w16 (w16 (w16 (fun _ => 0) 0x0C 7) 0x0E 4) 0x10 1
  else if b = 3 then setBits (fun _ => 0) 0 9
  else if b = 4 then setBits (fun _ => 0) 0 12
  else if b = 6 then memcpy (fun _ => 0) 384 fileImage 0 128
  else if b = 7 then
    putDirent (w16 (freshDirBlock (fun _ => 0) 1024 kRootIno kRootIno) 16 12) 24 12 1000 [97] 1
  else if b = 8 then memcpy (fun _ => 0) 0 (ofStr [120, 121, 122]) 0 3
  else smallDisk b

/-- The small volume with a file, and something on the stack. -/
def filed : Fs :=
  { small with
    stack := ⟨[[120]], fun _ => 85⟩
    disk := filedDisk
    freeBlocks := 7
    freeInodes := 4 }

theorem valid_filed : Valid filed :=
  Checked.valid (s := filed) (by decide +kernel) smallGeometry_ok

theorem valid_small : Valid small := Checked.valid (s := small) (by decide +kernel) smallGeometry_ok

end Fs

end Aurisys
