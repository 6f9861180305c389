import Aurisys.Fs.Image

/-!
# The layout of a volume

A volume of one group: the blocks that hold the metadata, and the slots of the inode table.

## Main definitions

* `Geometry.IsMeta`, `Geometry.Ok`
* `Fs.Used` — the bit of a block is set
* `Fs.inodes` — the inode table as images

## Main results

* `Geometry.Ok.slot_apart` — two slots have no byte in common
* `Fs.inodes_store`, `Fs.inodes_of_ne` — what a write to a block does to the table
-/

namespace Aurisys

open Bytes

namespace Geometry

variable {g : Geometry} {ino : ℕ}

/-- How many blocks the inode table has. -/
def tableBlocks (g : Geometry) : ℕ := (g.inodes - 1) / g.ipb + 1

/-- The single blocks of metadata: the superblock, the group descriptor and the two bitmaps. -/
def singles (g : Geometry) : List ℕ := [g.sbBlock, g.descBlock, g.bbb, g.ibb]

/-- The blocks that hold no file and no directory. -/
def IsMeta (g : Geometry) (b : ℕ) : Prop :=
  b = 0 ∨ b ∈ g.singles ∨ g.itb ≤ b ∧ b < g.itb + g.tableBlocks

instance (g : Geometry) (b : ℕ) : Decidable (g.IsMeta b) := inferInstanceAs (Decidable (_ ∨ _ ∨ _))

/-- The number of an inode. -/
def IsIno (g : Geometry) (ino : ℕ) : Prop := 0 < ino ∧ ino ≤ g.inodes

instance (g : Geometry) (ino : ℕ) : Decidable (g.IsIno ino) := inferInstanceAs (Decidable (_ ∧ _))

/-- What a volume of one group is like: `mount` accepts its sizes, each bitmap fits one block, and
the metadata are in different blocks, all on the volume. -/
structure Ok (g : Geometry) : Prop where
  /-- The block size is one that the driver takes. -/
  bs : g.bs = 1024 ∨ g.bs = 2048 ∨ g.bs = 4096
  /-- So is the size of an inode. -/
  inodeSize : g.inodeSize = 128 ∨ g.inodeSize = 256 ∨ g.inodeSize = 512
  /-- One block of the bitmap has a bit for each block, -/
  blocks : g.blocks ≤ 8 * g.bs
  /-- and one for each inode. -/
  inodes : 2 ≤ g.inodes ∧ g.inodes ≤ 8 * g.bs
  /-- There is one group. -/
  ipg : g.ipg = g.inodes
  /-- The blocks of metadata differ. -/
  singles : g.singles.Nodup
  /-- None of them is in the table. -/
  table : ∀ b ∈ g.singles, b < g.itb ∨ g.itb + g.tableBlocks ≤ b
  /-- They are on the volume. -/
  single_lt : ∀ b ∈ g.singles, b < g.blocks
  /-- So is the table. -/
  table_lt : g.itb + g.tableBlocks ≤ g.blocks

namespace Ok

variable (h : g.Ok)

include h

theorem ipb_pos : 0 < g.ipb := by
  rw [ipb]
  rcases h.bs with hb | hb | hb <;> rcases h.inodeSize with hi | hi | hi <;> rw [hb, hi] <;> decide

theorem inodeSize_ge : 128 ≤ g.inodeSize := by
  rcases h.inodeSize with hi | hi | hi <;> omega

theorem bs_pos : 0 < g.bs := by
  rcases h.bs with hb | hb | hb <;> omega

theorem bs_le : g.bs ≤ 4096 := by
  rcases h.bs with hb | hb | hb <;> omega

theorem blocks_le : g.blocks ≤ 32768 := by
  have := h.blocks
  have := h.bs_le
  omega

theorem meta_lt {b : ℕ} (hb : g.IsMeta b) : b < g.blocks := by
  have htable := h.table_lt
  rcases hb with rfl | hb | hb
  · exact lt_of_lt_of_le (Nat.succ_pos _) ((Nat.le_add_left _ _).trans htable)
  · exact h.single_lt b hb
  · omega

omit h in
theorem mul_ipb_le : g.ipb * g.inodeSize ≤ g.bs := Nat.div_mul_le_self _ _

/-- A slot does not go past the end of its block. -/
theorem slotOff_le (ino : ℕ) : g.slotOff ino + g.inodeSize ≤ g.bs := by
  have hr : (ino - 1) % g.ipb + 1 ≤ g.ipb := Nat.mod_lt _ h.ipb_pos
  calc g.slotOff ino + g.inodeSize = ((ino - 1) % g.ipb + 1) * g.inodeSize := by
        rw [slotOff, Nat.succ_mul]
    _ ≤ g.ipb * g.inodeSize := Nat.mul_le_mul_right _ hr
    _ ≤ g.bs := mul_ipb_le

/-- The number of the block of a slot does not wrap. -/
theorem slotBlock_eq (hi : g.IsIno ino) : g.slotBlock ino = g.itb + (ino - 1) / g.ipb := by
  have hle : (ino - 1) / g.ipb ≤ (g.inodes - 1) / g.ipb :=
    Nat.div_le_div_right (Nat.sub_le_sub_right hi.2 1)
  have htable := h.table_lt
  have hblocks := h.blocks_le
  rw [tableBlocks] at htable
  exact Nat.mod_eq_of_lt (by omega)

theorem slotBlock_mem (hi : g.IsIno ino) :
    g.itb ≤ g.slotBlock ino ∧ g.slotBlock ino < g.itb + g.tableBlocks := by
  have hle : (ino - 1) / g.ipb ≤ (g.inodes - 1) / g.ipb :=
    Nat.div_le_div_right (Nat.sub_le_sub_right hi.2 1)
  rw [h.slotBlock_eq hi, tableBlocks]
  exact ⟨Nat.le_add_right _ _, Nat.add_lt_add_left (Nat.lt_succ_of_le hle) _⟩

theorem slotBlock_meta (hi : g.IsIno ino) : g.IsMeta (g.slotBlock ino) :=
  .inr (.inr (h.slotBlock_mem hi))

theorem slotBlock_lt (hi : g.IsIno ino) : g.slotBlock ino < g.blocks :=
  h.meta_lt (h.slotBlock_meta hi)

theorem slotBlock_ne (hi : g.IsIno ino) {b : ℕ} (hb : b ∈ g.singles) : g.slotBlock ino ≠ b := by
  have hm := h.slotBlock_mem hi
  have ht := h.table b hb
  omega

omit h in
theorem single_meta {b : ℕ} (hb : b ∈ g.singles) : g.IsMeta b := .inr (.inl hb)

omit h in
theorem sb_mem : g.sbBlock ∈ g.singles := by simp [Geometry.singles]

omit h in
theorem desc_mem : g.descBlock ∈ g.singles := by simp [Geometry.singles]

omit h in
theorem bbb_mem : g.bbb ∈ g.singles := by simp [Geometry.singles]

omit h in
theorem ibb_mem : g.ibb ∈ g.singles := by simp [Geometry.singles]

theorem bbb_ne_ibb : g.bbb ≠ g.ibb := by
  have := h.singles
  simp only [Geometry.singles, List.nodup_cons, List.mem_cons, not_or] at this
  exact this.2.2.1.1

theorem desc_ne_bbb : g.descBlock ≠ g.bbb := by
  have := h.singles
  simp only [Geometry.singles, List.nodup_cons, List.mem_cons, not_or] at this
  exact this.2.1.1

theorem desc_ne_ibb : g.descBlock ≠ g.ibb := by
  have := h.singles
  simp only [Geometry.singles, List.nodup_cons, List.mem_cons, not_or] at this
  exact this.2.1.2.1

theorem sb_ne {b : ℕ} (hb : b ∈ [g.descBlock, g.bbb, g.ibb]) : g.sbBlock ≠ b := by
  have := (List.nodup_cons.mp h.singles).1
  exact fun he => this (he ▸ hb)

/-- **Two slots have no byte in common.** -/
theorem slot_apart {ino' : ℕ} (hi : g.IsIno ino) (hi' : g.IsIno ino') (hne : ino ≠ ino')
    (hb : g.slotBlock ino = g.slotBlock ino') :
    g.slotOff ino + g.inodeSize ≤ g.slotOff ino' ∨
    g.slotOff ino' + g.inodeSize ≤ g.slotOff ino := by
  have hq : (ino - 1) / g.ipb = (ino' - 1) / g.ipb := by
    rw [h.slotBlock_eq hi, h.slotBlock_eq hi'] at hb
    omega
  have hr : (ino - 1) % g.ipb ≠ (ino' - 1) % g.ipb := by
    intro hr
    have h₁ := Nat.div_add_mod (ino - 1) g.ipb
    have h₂ := Nat.div_add_mod (ino' - 1) g.ipb
    rw [hq, hr] at h₁
    have := hi.1
    have := hi'.1
    omega
  rw [slotOff, slotOff, ← Nat.succ_mul, ← Nat.succ_mul]
  rcases lt_or_gt_of_ne hr with hlt | hlt
  · exact .inl (Nat.mul_le_mul_right _ hlt)
  · exact .inr (Nat.mul_le_mul_right _ hlt)

end Ok

end Geometry

namespace Fs

/-- The bit of a block is set. -/
def Used (s : Fs) (b : ℕ) : Prop := (s.disk s.geo.bbb).bit b = true

/-- The bit of an inode is set. -/
def Live (s : Fs) (ino : ℕ) : Prop := (s.disk s.geo.ibb).bit (ino - 1) = true

instance (s : Fs) (ino : ℕ) : Decidable (s.Live ino) := inferInstanceAs (Decidable (_ = true))

/-- The slot of an inode. -/
def slot (s : Fs) (ino : ℕ) : Bytes :=
  fun j => s.disk (s.geo.slotBlock ino) (s.geo.slotOff ino + j)

/-- The inode table. -/
def inodes (s : Fs) (ino : ℕ) : Bytes := if s.geo.IsIno ino then s.slot ino else fun _ => 0

/-- A block has new contents. -/
@[simps -fullyApplied] def setDisk (s : Fs) (b : ℕ) (d : Bytes) : Fs :=
  { s with disk := Function.update s.disk b d }

variable {s : Fs} {ino : ℕ}

theorem inodes_of_isIno (hi : s.geo.IsIno ino) : s.inodes ino = s.slot ino := if_pos hi

theorem inodes_of_not (hi : ¬s.geo.IsIno ino) : s.inodes ino = fun _ => 0 := if_neg hi

/-- The table depends on the blocks it is in. -/
theorem inodes_congr {s' : Fs} (hgeo : s'.geo = s.geo)
    (h : ∀ ino, s.geo.IsIno ino → s'.disk (s.geo.slotBlock ino) = s.disk (s.geo.slotBlock ino)) :
    s'.inodes = s.inodes := by
  funext ino
  by_cases hi : s.geo.IsIno ino
  · have hi' : s'.geo.IsIno ino := hgeo.symm ▸ hi
    rw [inodes_of_isIno hi, inodes_of_isIno hi']
    funext j
    rw [slot, slot, hgeo, h ino hi]
  · have hi' : ¬s'.geo.IsIno ino := hgeo.symm ▸ hi
    rw [inodes_of_not hi, inodes_of_not hi']

/-- **A write elsewhere** leaves the table alone. -/
theorem inodes_of_ne {b : ℕ} (d : Bytes) (hb : ∀ ino, s.geo.IsIno ino → s.geo.slotBlock ino ≠ b) :
    (s.setDisk b d).inodes = s.inodes :=
  inodes_congr rfl fun ino hi => Function.update_of_ne (hb ino hi) _ _

/-- **A write to one slot** leaves the others alone. -/
theorem inodes_store (hg : s.geo.Ok) (hi : s.geo.IsIno ino) {d img : Bytes}
    (hin : ∀ j < s.geo.inodeSize, d (s.geo.slotOff ino + j) = img j)
    (hout : ∀ a, a < s.geo.slotOff ino ∨ s.geo.slotOff ino + s.geo.inodeSize ≤ a →
      d a = s.disk (s.geo.slotBlock ino) a) (k : ℕ) :
    Same ((s.setDisk (s.geo.slotBlock ino) d).inodes k) (Function.update s.inodes ino img k) := by
  intro j hj
  have hj := lt_of_lt_of_le hj hg.inodeSize_ge
  by_cases hk : s.geo.IsIno k
  · rw [inodes_of_isIno (s := s.setDisk _ d) hk]
    change Function.update s.disk (s.geo.slotBlock ino) d (s.geo.slotBlock k)
      (s.geo.slotOff k + j) = _
    by_cases he : k = ino
    · rw [he, Function.update_self, Function.update_self, hin j hj]
    · rw [Function.update_of_ne he, inodes_of_isIno hk]
      change _ = s.disk (s.geo.slotBlock k) (s.geo.slotOff k + j)
      by_cases hb : s.geo.slotBlock k = s.geo.slotBlock ino
      · have hap := hg.slot_apart hk hi he hb
        rw [hb, Function.update_self, hout _ (by omega)]
      · rw [Function.update_of_ne hb]
  · have he : k ≠ ino := fun he => hk (he ▸ hi)
    rw [Function.update_of_ne he, inodes_of_not hk, inodes_of_not (s := s.setDisk _ d) hk]

/-! ## A small volume -/

/-- 16 blocks of 1024 bytes and 16 inodes. -/
def smallGeometry : Geometry where
  bs := 1024
  blocks := 16
  inodes := 16
  ipg := 16
  inodeSize := 128
  descBlock := 2
  bbb := 3
  ibb := 4
  itb := 5

theorem smallGeometry_ok : smallGeometry.Ok where
  bs := by decide
  inodeSize := by decide
  blocks := by decide
  inodes := by decide
  ipg := rfl
  singles := by decide
  table := by decide
  single_lt := by decide
  table_lt := by decide

/-- Its blocks: the root directory is in block 7, and the first eleven inodes are not handed out. -/
def smallDisk (b : ℕ) : Bytes :=
  if b = 2 then w16 (w16 (w16 (fun _ => 0) 0x0C 8) 0x0E 5) 0x10 1
  else if b = 3 then setBits (fun _ => 0) 0 8
  else if b = 4 then setBits (fun _ => 0) 0 11
  else if b = 5 then memcpy (fun _ => 0) 128 (freshDir 1024 7) 0 128
  else if b = 7 then freshDirBlock (fun _ => 0) 1024 kRootIno kRootIno
  else fun _ => 0

/-- The volume as it is when it has been mounted. -/
def small : Fs where
  geo := smallGeometry
  stack := ⟨[], fun _ => 0⟩
  disk := smallDisk
  sb := fun _ => 0
  b1 := fun _ => 0
  b2 := fun _ => 0
  ino := fun _ => 0
  hint := 0
  freeBlocks := 8
  freeInodes := 5
  born := fun _ => 0

end Fs

end Aurisys
