import Aurisys.Lib.Bitmap
import Aurisys.Lib.Fallible
import Mathlib.Logic.Function.Basic

/-!
# The volume: blocks, inodes and allocation

The lower half of `fs.cpp`: the globals that `mount` sets, block transfers, the inode image, the map
from logical to physical blocks, the two bitmaps and the counts.

A volume is a family of blocks. The functions share four buffers, `g_b1`, `g_b2`, `g_ino` and
`g_sb`, and most of them leave something in one of them that another one uses; so the buffers are
part of the state, and a call that fails leaves them, and the disk, as they were when it gave up.

## Scope

Transfers do not fail, other than for a block that is not on the volume. The volume is mounted. A
null pointer is refused before anything else and is left out. The `uint32_t` sums that can pass
`2 ^ 32` are taken modulo it, with `u32`.

## Main definitions

* `Fs` — the state
* `loadInode`, `storeInode`, `mapLblock`
* `allocBlocks`, `allocInode`, `freeBlocks`, `commitCounts`
-/

namespace Aurisys

open Bytes

/-- A sum or a product of 32-bit numbers. -/
def u32 (x : ℕ) : ℕ := x % 2 ^ 32

/-- What `mount` finds out about the volume. -/
structure Geometry where
  /-- `g_bs`, the size of a block. -/
  bs : ℕ
  /-- `g_blocks`. -/
  blocks : ℕ
  /-- `g_inodes`. -/
  inodes : ℕ
  /-- `g_ipg`, the inodes of a group. -/
  ipg : ℕ
  /-- `g_inode_size`. -/
  inodeSize : ℕ
  /-- `g_desc_block`, the block of the group descriptor. -/
  descBlock : ℕ
  /-- The block bitmap. -/
  bbb : ℕ
  /-- The inode bitmap. -/
  ibb : ℕ
  /-- The first block of the inode table. -/
  itb : ℕ
deriving DecidableEq

namespace Geometry

/-- `g_ipb`. -/
def ipb (g : Geometry) : ℕ := g.bs / g.inodeSize

/-- The block of the inode table an inode is in. -/
def slotBlock (g : Geometry) (ino : ℕ) : ℕ := u32 (g.itb + (ino - 1) / g.ipb)

/-- Where in that block it is. -/
def slotOff (g : Geometry) (ino : ℕ) : ℕ := (ino - 1) % g.ipb * g.inodeSize

/-- How many blocks a size takes. -/
def blocksOf (g : Geometry) (size : ℕ) : ℕ := u32 (size + g.bs - 1) / g.bs

/-- The block in which sectors 2 and 3 are, the superblock. -/
def sbBlock (g : Geometry) : ℕ := 1024 / g.bs

end Geometry

/-- What a function finds when it reads past the end of an array on its stack. -/
structure Stack where
  /-- The components after the copy of a path in `lookup_abs`. -/
  components : List (List UInt8)
  /-- The bytes after the 512 zeroes in `write_at`. -/
  zeroes : Bytes

/-- The state of the file system. -/
structure Fs where
  geo : Geometry
  stack : Stack
  /-- The partition, by blocks. -/
  disk : ℕ → Bytes
  /-- `g_sb`. -/
  sb : Bytes
  /-- `g_b1`. -/
  b1 : Bytes
  /-- `g_b2`. -/
  b2 : Bytes
  /-- `g_ino`, the current inode image. -/
  ino : Bytes
  /-- `g_hint`. -/
  hint : ℕ
  /-- `g_free_blocks`. -/
  freeBlocks : ℕ
  /-- `g_free_inodes`. -/
  freeInodes : ℕ
  /-- How many times each inode number has been handed out. The code does not keep this. -/
  born : ℕ → ℕ

/-- A function of `fs.cpp`: `false`, or `0` from those that return a number, is failure. -/
abbrev Act (α : Type) := Fallible Fs α

namespace Fs

@[simps -fullyApplied] def setB1 (s : Fs) (b : Bytes) : Fs := { s with b1 := b }

@[simps -fullyApplied] def setB2 (s : Fs) (b : Bytes) : Fs := { s with b2 := b }

@[simps -fullyApplied] def setIno (s : Fs) (b : Bytes) : Fs := { s with ino := b }

/-- The first bytes of a buffer go to a block. -/
@[simps -fullyApplied] def putBlock (s : Fs) (blk : ℕ) (buf : Bytes) : Fs :=
  { s with disk := Function.update s.disk blk (memcpy (s.disk blk) 0 buf 0 s.geo.bs) }

/-! ## Blocks -/

/-- `read_block` into `g_b1`. -/
def readB1 (blk : ℕ) : Act Unit := do
  let s ← get
  guard (blk < s.geo.blocks)
  modify fun s => s.setB1 (memcpy s.b1 0 (s.disk blk) 0 s.geo.bs)

/-- `read_block` into `g_b2`. -/
def readB2 (blk : ℕ) : Act Unit := do
  let s ← get
  guard (blk < s.geo.blocks)
  modify fun s => s.setB2 (memcpy s.b2 0 (s.disk blk) 0 s.geo.bs)

/-- `write_block` from `g_b1`. -/
def writeB1 (blk : ℕ) : Act Unit := do
  let s ← get
  guard (blk < s.geo.blocks)
  modify fun s => s.putBlock blk s.b1

/-- `write_block` from `g_b2`. -/
def writeB2 (blk : ℕ) : Act Unit := do
  let s ← get
  guard (blk < s.geo.blocks)
  modify fun s => s.putBlock blk s.b2

/-! ## Inodes -/

def kRootIno : ℕ := 2

def kExtMagic : ℕ := 0xF30A

def kExtentsFl : ℕ := 0x80000

def kMaxDepth : ℕ := 4

/-- `load_inode`. -/
def loadInode (ino : ℕ) : Act Unit := do
  let s ← get
  guard (ino ≠ 0 ∧ ino ≤ s.geo.inodes)
  readB1 (s.geo.slotBlock ino)
  modify fun s => s.setIno (memcpy s.ino 0 s.b1 (s.geo.slotOff ino) s.geo.inodeSize)

/-- `store_inode`. -/
def storeInode (ino : ℕ) : Act Unit := do
  let s ← get
  readB1 (s.geo.slotBlock ino)
  modify fun s => s.setB1 (memcpy s.b1 (s.geo.slotOff ino) s.ino 0 s.geo.inodeSize)
  writeB1 (s.geo.slotBlock ino)

/-- `inode_is_dir`. -/
def IsDir (img : Bytes) : Prop := r16 img 0 &&& 0xF000 = 0x4000

/-- `inode_is_file`. -/
def IsFile (img : Bytes) : Prop := r16 img 0 &&& 0xF000 = 0x8000

instance (img : Bytes) : Decidable (IsDir img) := inferInstanceAs (Decidable (_ = _))

instance (img : Bytes) : Decidable (IsFile img) := inferInstanceAs (Decidable (_ = _))

/-- `inode_size`; a file with a size of 64 bits is as large as can be. -/
def inodeSize (img : Bytes) : ℕ := if r32 img 0x6C ≠ 0 then 0xFFFFFFFF else r32 img 4

/-! ## Logical blocks -/

/-- The first block of the extent, or index, at `e`. -/
def extStart (node : Bytes) (e : ℕ) : ℕ := r16 node (e + 6) * 2 ^ 16 ||| r32 node (e + 8)

/-- Its length; the top bit says that it was not written. -/
def extLen (node : Bytes) (e : ℕ) : ℕ := r16 node (e + 4) &&& 0x7FFF

/-- The loop of `extent_walk` over a leaf. -/
def leafFind (node : Bytes) (lblock : ℕ) : Option ℕ :=
  (List.range (r16 node 2)).findSome? fun i =>
    let e := 12 + i * 12
    let eb := r32 node e
    if lblock < eb ∨ u32 (eb + extLen node e) ≤ lblock then none
    else some (u32 (extStart node e + (lblock - eb)))

/-- The loop of `extent_walk` over an inner node: the block of the child to go on with. -/
def indexFind (node : Bytes) (lblock : ℕ) : List ℕ → Option ℕ
  | [] => none
  | i :: l =>
    let e := 12 + i * 12
    let next := if i + 1 < r16 node 2 then r32 node (e + 12) else 0xFFFFFFFF
    if lblock < r32 node e then none
    else if next ≤ lblock then indexFind node lblock l
    else some (r16 node (e + 8) * 2 ^ 16 ||| r32 node (e + 4))

/-- `extent_walk`, with how much deeper it may go. -/
def extentWalk (lblock : ℕ) : ℕ → Bytes → Act ℕ
  | 0, _ => failure
  | depth + 1, node => do
    guard (r16 node 0 = kExtMagic)
    if r16 node 6 = 0 then Fallible.ofOption (leafFind node lblock)
    else do
      let child ← Fallible.ofOption (indexFind node lblock (List.range (r16 node 2)))
      readB1 child
      let s ← get
      extentWalk lblock depth s.b1

/-- A pointer of `indirect_walk` that points into the volume. -/
def pointer (p : ℕ) : Act ℕ := do
  let s ← get
  guard (p ≠ 0 ∧ p < s.geo.blocks)
  return p

/-- `indirect_walk`. -/
def indirectWalk (lblock : ℕ) : Act ℕ := do
  let s ← get
  let per := s.geo.bs / 4
  if lblock < 12 then pointer (r32 s.ino (0x28 + lblock * 4))
  else if lblock - 12 < per then do
    let ind ← pointer (r32 s.ino (0x28 + 12 * 4))
    readB1 ind
    let s ← get
    pointer (r32 s.b1 ((lblock - 12) * 4))
  else if lblock - 12 - per < per * per then do
    let dbl ← pointer (r32 s.ino (0x28 + 13 * 4))
    readB1 dbl
    let s ← get
    let sn ← pointer (r32 s.b1 ((lblock - 12 - per) / per * 4))
    readB1 sn
    let s ← get
    pointer (r32 s.b1 ((lblock - 12 - per) % per * 4))
  else failure

/-- `map_lblock`. -/
def mapLblock (lblock : ℕ) : Act ℕ := do
  let s ← get
  if r32 s.ino 0x20 &&& kExtentsFl ≠ 0 then
    extentWalk lblock (kMaxDepth + 1) fun a => s.ino (0x28 + a)
  else indirectWalk lblock

/-! ## Allocation -/

/-- The loop of `alloc_blocks`: the first block of a run, going round from the hint. -/
def findRun (used : ℕ → Bool) (blocks hint n : ℕ) : ℕ → ℕ → ℕ → ℕ → Option ℕ
  | 0, _, _, _ => none
  | k + 1, i, run, start =>
    let bit := u32 (hint + i) % blocks
    if used bit then findRun used blocks hint n k (i + 1) 0 start
    else
      let start := if run = 0 then bit else start
      if run + 1 = n then some start else findRun used blocks hint n k (i + 1) (run + 1) start

/-- `alloc_blocks`. -/
def allocBlocks (n : ℕ) : Act ℕ := do
  let s ← get
  guard (n ≠ 0 ∧ n ≤ s.geo.blocks)
  readB1 s.geo.bbb
  let s ← get
  let first ← Fallible.ofOption
    (findRun s.b1.bit s.geo.blocks s.hint n s.geo.blocks 0 0 0)
  modify fun s => s.setB1 (s.b1.setBits first n)
  writeB1 s.geo.bbb
  modify fun s => { s with hint := u32 (first + n) % s.geo.blocks }
  return first

/-- The first inode that is free in a bitmap. -/
def freeInode (bitmap : Bytes) (ipg : ℕ) : Option ℕ := (List.range ipg).find? fun i => !bitmap.bit i

/-- `alloc_inode`. -/
def allocInode : Act ℕ := do
  let s ← get
  readB1 s.geo.ibb
  let s ← get
  let i ← Fallible.ofOption (freeInode s.b1 s.geo.ipg)
  modify fun s => s.setB1 (s.b1.setBit i)
  writeB1 s.geo.ibb
  modify fun s => { s with born := Function.update s.born (i + 1) (s.born (i + 1) + 1) }
  return i + 1

/-- `free_blocks`. -/
def freeBlocksAt (first n : ℕ) : Act Unit := do
  let s ← get
  guard (n ≠ 0 ∧ u32 (first + n) ≤ s.geo.blocks)
  readB1 s.geo.bbb
  modify fun s => s.setB1 (s.b1.clearBits first n)
  writeB1 s.geo.bbb

/-- The superblock goes to sectors 2 and 3. -/
@[simps -fullyApplied] def putSb (s : Fs) : Fs :=
  { s with
    disk := Function.update s.disk s.geo.sbBlock
      (memcpy (s.disk s.geo.sbBlock) (1024 % s.geo.bs) s.sb 0 1024) }

/-- The three counts of the group descriptor. -/
def setCounts (b : Bytes) (fb fi fd : ℤ) : Bytes :=
  w16 (w16 (w16 b 0x0C fb.toNat) 0x0E fi.toNat) 0x10 fd.toNat

/-- The counts that `summary` tells, and the superblock. -/
def settle (s : Fs) (usedBlocks usedInodes : ℤ) : Fs :=
  let fb := ((s.freeBlocks - usedBlocks) % 2 ^ 32).toNat
  let fi := ((s.freeInodes - usedInodes) % 2 ^ 32).toNat
  { s with freeBlocks := fb, freeInodes := fi, sb := w32 (w32 s.sb 0x0C fb) 0x10 fi }

/-- `commit_counts`. -/
def commitCounts (usedBlocks usedInodes usedDirs : ℤ) : Act Unit := do
  if usedBlocks = 0 ∧ usedInodes = 0 ∧ usedDirs = 0 then return
  let s ← get
  readB1 s.geo.descBlock
  let s ← get
  let fb := r16 s.b1 0x0C - usedBlocks
  let fi := r16 s.b1 0x0E - usedInodes
  let fd := r16 s.b1 0x10 + usedDirs
  guard (0 ≤ fb ∧ 0 ≤ fi ∧ 0 ≤ fd)
  modify fun s => s.setB1 (setCounts s.b1 fb fi fd)
  writeB1 s.geo.descBlock
  modify fun s => (s.settle usedBlocks usedInodes).putSb

end Fs

end Aurisys
