import Aurisys.Fs.Alloc

/-!
# Which volumes are mounted, and which can be worked with

`mount` checks that a superblock can be read. It does not check that the driver can work with the
volume: that there is one group, that the group begins with block 0, that its bitmaps are a block
each, that a bit stands for one block and not for a cluster, that the numbers of blocks fit 32 bits,
or that the inode table is on the volume. The feature words are read and only shown. What it lets
through is compared here with what the rest of the driver takes for granted.

The blocks of a volume are the sectors of the partition from `g_part_lba` on, as `read_block` finds
them. What the format says of the volume is read from the superblock and the descriptors alone.

## Main definitions

* `mount`, `Volume`
* `Volume.total`, `Volume.ratio`, `Volume.word` — the volume by its feature words
* `Volume.place`, `Volume.entry` — where the bit of a block and the entry of an inode are
* `allocIndices`, `inodeIndices`, `freeIndices` — the bytes of `g_b1` that are touched
* `Volume.Handles` — what the driver takes for granted

## Main results

* `handles_iff`
-/

namespace Aurisys

open Bytes Fallible

namespace Fs

/-- The drive, by sectors of 512 bytes. -/
abbrev Drive := ℕ → Bytes

def kSbMagic : ℕ := 0xEF53

def kMaxBlockSize : ℕ := 4096

/-- `read_sectors`: the sectors one after the other. -/
def readSectors (dev : Drive) (lba : ℕ) : Bytes := fun a => dev (u32 (lba + a / 512)) (a % 512)

/-- The loop of `mount` over the partition table. -/
def findPart (mbr : Bytes) : ℕ :=
  (List.range 4).foldl (fun part i =>
    let e := 0x1BE + i * 16
    if part = 0 ∧ (mbr (e + 4)).toNat = 0x83 then r32 mbr (e + 8) else part) 0

/-- What `mount` takes from a superblock. -/
structure Super where
  bs : ℕ
  firstData : ℕ
  blocks : ℕ
  inodes : ℕ
  bpg : ℕ
  ipg : ℕ
  inodeSize : ℕ
  stride : ℕ

/-- The part of `mount` that looks at the superblock. -/
def readSuper (sb : Bytes) : Option Super := do
  guard (r16 sb 0x38 = kSbMagic)
  let log := r32 sb 0x18
  guard (log ≤ 12)
  let bs := 1024 * 2 ^ log
  guard (bs ≤ kMaxBlockSize)
  let inoSz := r16 sb 0x58
  guard (128 ≤ inoSz ∧ inoSz ≤ 512 ∧ inoSz &&& (inoSz - 1) = 0)
  guard (bs / inoSz ≠ 0 ∧ r32 sb 0x20 ≠ 0 ∧ r32 sb 0x28 ≠ 0 ∧ r32 sb 0x04 ≠ 0)
  return {
    bs := bs
    firstData := r32 sb 0x14
    blocks := r32 sb 0x04
    inodes := r32 sb 0x00
    bpg := r32 sb 0x20
    ipg := r32 sb 0x28
    inodeSize := inoSz
    stride := max 32 (r16 sb 0xFE) }

/-- A volume that has been mounted: the state, and the globals that only `mount` looks at. -/
structure Volume where
  fs : Fs
  /-- `g_first_data`, the first block of group 0. -/
  firstData : ℕ
  /-- `g_bpg`, the blocks of a group. -/
  bpg : ℕ

/-- The part of `mount` that sets the globals, and reads the descriptor of group 0 into `g_b1`. -/
def setUp (dev : Drive) (part : ℕ) (sb : Bytes) (sp : Super) (s : Fs) : Fs :=
  let disk := fun b => readSectors dev (u32 (part + b * (sp.bs / 512)))
  let desc := disk (u32 (sp.firstData + 1))
  { s with
    geo := {
      bs := sp.bs
      blocks := sp.blocks
      inodes := sp.inodes
      ipg := sp.ipg
      inodeSize := sp.inodeSize
      descBlock := u32 (sp.firstData + 1)
      bbb := r32 desc (0 * sp.stride)
      ibb := r32 desc 4
      itb := r32 desc 8 }
    disk := disk
    sb := memcpy s.sb 0 sb 0 1024
    b1 := memcpy s.b1 0 desc 0 sp.bs
    freeBlocks := r32 sb 0x0C
    freeInodes := r32 sb 0x10 }

/-- `mount`. -/
def mount (dev : Drive) (diskLba : ℕ) (s : Fs) : Option Volume := do
  let mbr := readSectors dev diskLba
  guard (r16 mbr 510 = 0xAA55)
  let part := findPart mbr
  guard (part ≠ 0)
  let sb := readSectors dev (u32 (part + 2))
  let sp ← readSuper sb
  guard (u32 (sp.firstData + 1) < sp.blocks)
  let root := exec (loadInode kRootIno) (setUp dev part sb sp s)
  guard (root.1 = some () ∧ IsDir root.2.ino)
  return { fs := root.2, firstData := sp.firstData, bpg := sp.bpg }

/-! ## What the format says

Descriptors begin in the block behind the superblock, which is at byte 1024. With `META_BG` those of
later groups are elsewhere; that makes no difference here, where more than one group is too many. -/

namespace Volume

/-- `s_feature_incompat` has `64BIT`. -/
def wide (v : Volume) : Bool := (r32 v.fs.sb 0x60).testBit 7

/-- `s_blocks_count`, with its upper half. -/
def total (v : Volume) : ℕ := r32 v.fs.sb 0x04 + if v.wide then 2 ^ 32 * r32 v.fs.sb 0x150 else 0

/-- How many blocks a bit stands for: a cluster, when `s_feature_ro_compat` has `BIGALLOC`. -/
def ratio (v : Volume) : ℕ :=
  if (r32 v.fs.sb 0x64).testBit 9 then 2 ^ (r32 v.fs.sb 0x1C - r32 v.fs.sb 0x18) else 1

/-- `s_inode_size`, which the first revision does not have. -/
def inodeBytes (v : Volume) : ℕ := if r32 v.fs.sb 0x4C = 0 then 128 else r16 v.fs.sb 0x58

/-- The size of a group descriptor. -/
def descBytes (v : Volume) : ℕ := if v.wide then r16 v.fs.sb 0xFE else 32

/-- The group descriptors, one after the other. -/
def descriptors (v : Volume) : Bytes :=
  fun a => v.fs.disk (1024 / v.fs.geo.bs + 1 + a / v.fs.geo.bs) (a % v.fs.geo.bs)

/-- A word of a descriptor, with its upper half if the descriptor is long enough for one. -/
def word (v : Volume) (group lo hi : ℕ) : ℕ :=
  r32 v.descriptors (group * v.descBytes + lo) +
    if v.wide ∧ 64 ≤ v.descBytes then 2 ^ 32 * r32 v.descriptors (group * v.descBytes + hi) else 0

/-- The block of the block bitmap of a group. -/
def bitmapOf (v : Volume) (group : ℕ) : ℕ := v.word group 0x00 0x20

/-- The first block of the inode table of a group. -/
def tableOf (v : Volume) (group : ℕ) : ℕ := v.word group 0x08 0x28

/-- `BLOCK_UNINIT`, on a volume with checksums: there is no bitmap on the disk yet. -/
def uninit (v : Volume) (group : ℕ) : Bool :=
  ((r32 v.fs.sb 0x64).testBit 4 || (r32 v.fs.sb 0x64).testBit 10) &&
    (r16 v.descriptors (group * v.descBytes + 0x12)).testBit 1

/-- How many groups there are. -/
def groups (v : Volume) : ℕ := (v.total - v.firstData + v.bpg - 1) / v.bpg

/-- The block of the bitmap that has the bit of a block, and the bit in it. -/
def place (v : Volume) (b : ℕ) : Option (ℕ × ℕ) :=
  let group := (b - v.firstData) / v.bpg
  if v.firstData ≤ b ∧ b < v.total ∧ v.uninit group = false then
    some (v.bitmapOf group, (b - v.firstData) % v.bpg / v.ratio)
  else none

/-- The block an inode is in, and its place there. -/
def entry (v : Volume) (ino : ℕ) : Option (ℕ × ℕ) :=
  let group := (ino - 1) / v.fs.geo.ipg
  let i := (ino - 1) % v.fs.geo.ipg
  let ipb := v.fs.geo.bs / v.inodeBytes
  if group < v.groups then some (v.tableOf group + i / ipb, i % ipb * v.inodeBytes) else none

end Volume

/-! ## The bytes that are touched -/

/-- The bits that the search of `alloc_blocks` looks at. -/
def searched (used : ℕ → Bool) (blocks hint n : ℕ) : ℕ → ℕ → ℕ → List ℕ
  | 0, _, _ => []
  | k + 1, i, run =>
    let bit := u32 (hint + i) % blocks
    bit ::
      if used bit then searched used blocks hint n k (i + 1) 0
      else if run + 1 = n then []
      else searched used blocks hint n k (i + 1) (run + 1)

/-- The bytes of the block bitmap that `alloc_blocks` reads, and then those that it sets. -/
def allocIndices (s : Fs) (n : ℕ) : List ℕ :=
  if n = 0 ∨ s.geo.blocks < n ∨ s.geo.blocks ≤ s.geo.bbb then []
  else
    let used := bit (memcpy s.b1 0 (s.disk s.geo.bbb) 0 s.geo.bs)
    (searched used s.geo.blocks s.hint n s.geo.blocks 0 0).map (· / 8) ++
      match findRun used s.geo.blocks s.hint n s.geo.blocks 0 0 0 with
      | some first => (List.range n).map fun k => u32 (first + k) / 8
      | none => []

/-- The bits that `alloc_inode` looks at. -/
def probed (bitmap : Bytes) : List ℕ → List ℕ
  | [] => []
  | i :: l => i :: if bitmap.bit i then probed bitmap l else []

/-- The bytes of the inode bitmap that `alloc_inode` reads; the last one it sets. -/
def inodeIndices (s : Fs) : List ℕ :=
  if s.geo.blocks ≤ s.geo.ibb then []
  else (probed (memcpy s.b1 0 (s.disk s.geo.ibb) 0 s.geo.bs) (List.range s.geo.ipg)).map (· / 8)

/-- The bytes of the block bitmap that `free_blocks` sets. -/
def freeIndices (g : Geometry) (first n : ℕ) : List ℕ :=
  if n = 0 ∨ g.blocks < u32 (first + n) ∨ g.blocks ≤ g.bbb then []
  else (List.range n).map fun k => u32 (first + k) / 8

/-! ## What is taken for granted -/

namespace Volume

/-- `load_inode` gets the bytes from a place. -/
def Loads (s : Fs) (ino blk off : ℕ) : Prop :=
  ∃ t, exec (loadInode ino) s = (some (), t) ∧
    ∀ j < s.geo.inodeSize, t.ino j = s.disk blk (off + j)

/-- What the driver takes for granted about a volume, whatever is written to it later, and about a
run that is given to `free_blocks`. -/
structure Handles (v : Volume) (first n : ℕ) : Prop where
  /-- The block bitmap fits in a block. -/
  blocks : v.total ≤ 8 * v.fs.geo.bs
  /-- So does the inode bitmap. -/
  ipg : v.fs.geo.ipg ≤ 8 * v.fs.geo.bs
  /-- Bit `i` of the bitmap that the driver has stands for block `i`. -/
  denotes : ∀ i < v.total, v.place i = some (v.fs.geo.bbb, i)
  /-- An inode is loaded from its entry. -/
  entries : ∀ ino, v.fs.geo.IsIno ino → ∃ blk off, v.entry ino = some (blk, off) ∧
    blk < v.fs.geo.blocks ∧ ∀ s : Fs, s.geo = v.fs.geo → Loads s ino blk off
  /-- The three functions stay in `g_b1`. -/
  alloc : ∀ (s : Fs) (m : ℕ), s.geo = v.fs.geo → ∀ i ∈ s.allocIndices m, i < kMaxBlockSize
  inode : ∀ s : Fs, s.geo = v.fs.geo → ∀ i ∈ s.inodeIndices, i < kMaxBlockSize
  free : ∀ i ∈ freeIndices v.fs.geo first n, i < kMaxBlockSize

/-- One group, which begins with block 0 and has a block for each bitmap and a table on the volume;
a bit for a block; descriptors where the driver looks for them, with words of 32 bits. And when the
block bitmap is on the volume too, no more blocks than half a bitmap of 4096 bytes has bits, and a
run whose end does not wrap. -/
structure Fits (v : Volume) (first n : ℕ) : Prop where
  /-- There are as many bits as blocks, -/
  blocks : v.total ≤ 8 * v.fs.geo.bs
  /-- and as inodes. -/
  ipg : v.fs.geo.ipg ≤ 8 * v.fs.geo.bs
  /-- The group begins with block 0. -/
  firstData : v.firstData = 0
  /-- There is one group. -/
  group : v.total ≤ v.bpg
  /-- A bit is for one block. -/
  ratio : v.ratio = 1
  /-- The bitmap has been written. -/
  init : v.uninit 0 = false
  /-- The bitmap is where the driver looks, -/
  bitmapOf : v.bitmapOf 0 = v.fs.geo.bbb
  /-- and so is the table. -/
  tableOf : v.tableOf 0 = v.fs.geo.itb
  /-- An inode is as long as the driver takes it for. -/
  inodeBytes : v.inodeBytes = v.fs.geo.inodeSize
  /-- All inodes are in the group. -/
  inodes : v.fs.geo.inodes ≤ v.fs.geo.ipg
  /-- The table is on the volume. -/
  table : v.fs.geo.itb + (v.fs.geo.inodes - 1) / v.fs.geo.ipb < v.fs.geo.blocks
  /-- There are no more blocks than half a bitmap has bits. -/
  half : v.fs.geo.bbb < v.fs.geo.blocks → v.fs.geo.blocks ≤ 16384
  /-- The end of the run does not wrap. -/
  run : v.fs.geo.bbb < v.fs.geo.blocks →
    n = 0 ∨ v.fs.geo.blocks < u32 (first + n) ∨ first + n < 2 ^ 32

/-- What `mount` makes sure of. -/
structure Mounted (v : Volume) : Prop where
  bs : v.fs.geo.bs = 1024 ∨ v.fs.geo.bs = 2048 ∨ v.fs.geo.bs = 4096
  inodeSize : v.fs.geo.inodeSize = 128 ∨ v.fs.geo.inodeSize = 256 ∨ v.fs.geo.inodeSize = 512
  inodeSize_eq : v.fs.geo.inodeSize = r16 v.fs.sb 0x58
  blocks : u32 (v.firstData + 1) < v.fs.geo.blocks
  blocks_eq : v.fs.geo.blocks = r32 v.fs.sb 0x04
  inodes : 2 ≤ v.fs.geo.inodes
  ipg : 0 < v.fs.geo.ipg
  bpg : 0 < v.bpg
  itb_lt : v.fs.geo.itb < 2 ^ 32

end Volume

variable {dev : Drive} {lba first n : ℕ} {s : Fs} {v : Volume} {sb : Bytes} {sp : Super}

/-! ## What is mounted -/

theorem of_guard {α : Type} {p : Prop} [Decidable p] {f : Unit → Option α} {a : α}
    (h : (guard p >>= f) = some a) : p ∧ f () = some a := by
  by_cases hp : p
  · rw [guard, if_pos hp] at h
    exact ⟨hp, h⟩
  · rw [guard, if_neg hp] at h
    exact absurd h (by simp)

theorem pow_sizes {log : ℕ} (h : 1024 * 2 ^ log ≤ 4096) :
    1024 * 2 ^ log = 1024 ∨ 1024 * 2 ^ log = 2048 ∨ 1024 * 2 ^ log = 4096 := by
  have hlog : log < 3 := by
    by_contra hge
    have hpow : 2 ^ 3 ≤ 2 ^ log := Nat.pow_le_pow_right (by decide) (by omega)
    omega
  have hcases : log = 0 ∨ log = 1 ∨ log = 2 := by omega
  rcases hcases with rfl | rfl | rfl <;> decide

theorem inode_sizes : ∀ sz ≤ 512, 128 ≤ sz → sz &&& (sz - 1) = 0 → sz = 128 ∨
    sz = 256 ∨ sz = 512 := by
  decide +kernel

/-- The sizes that are accepted, and where they are from. -/
theorem of_readSuper (h : readSuper sb = some sp) :
    (sp.bs = 1024 ∨ sp.bs = 2048 ∨ sp.bs = 4096) ∧
      (sp.inodeSize = 128 ∨ sp.inodeSize = 256 ∨ sp.inodeSize = 512) ∧
      0 < sp.bpg ∧ 0 < sp.ipg ∧ sp.inodeSize = r16 sb 0x58 ∧ sp.blocks = r32 sb 0x04 := by
  obtain ⟨-, h⟩ := of_guard h
  obtain ⟨-, h⟩ := of_guard h
  obtain ⟨hbs, h⟩ := of_guard h
  obtain ⟨⟨hge, hle, hpow⟩, h⟩ := of_guard h
  obtain ⟨⟨-, hbpg, hipg, -⟩, h⟩ := of_guard h
  obtain rfl := Option.some.inj h
  exact ⟨pow_sizes hbs, inode_sizes _ hle hge hpow, Nat.pos_of_ne_zero hbpg,
    Nat.pos_of_ne_zero hipg,
    rfl, rfl⟩

/-- Loading an inode touches neither the volume nor the superblock, and there is an inode of that
number. -/
theorem wp_loadInode_geo {ino : ℕ} : wp (loadInode ino)
    (fun _ t => t.geo = s.geo ∧ t.sb = s.sb ∧ s.geo.IsIno ino) (fun _ => True) s := by
  rw [loadInode, wp_bind, wp_get, wp_bind, wp_guard]
  refine ⟨fun hino => ?_, fun _ => trivial⟩
  rw [wp_bind, wp_readB1]
  exact ⟨fun _ => ⟨rfl, rfl, Nat.pos_of_ne_zero hino.1, hino.2⟩, fun _ => trivial⟩

theorem mounted_of_mount (h : mount dev lba s = some v) : v.Mounted := by
  obtain ⟨-, h⟩ := of_guard h
  obtain ⟨-, h⟩ := of_guard h
  obtain ⟨sp, hsuper, h⟩ := Option.bind_eq_some_iff.mp h
  obtain ⟨hdesc, h⟩ := of_guard h
  obtain ⟨⟨hroot, -⟩, h⟩ := of_guard h
  obtain rfl := Option.some.inj h
  obtain ⟨hbs, hsize, hbpg, hipg, hsize_eq, hblocks_eq⟩ := of_readSuper hsuper
  obtain ⟨hgeo, hsb, hino⟩ := wp_of_some wp_loadInode_geo (exec_eq hroot)
  -- the copy of the superblock has the words that were read
  have hcopy : ∀ m sb a, a < 1024 → memcpy m 0 sb 0 1024 a = sb a := fun m sb a ha => by
    rw [memcpy_zero_of_lt ha, Nat.zero_add]
  constructor
  case bs => rwa [hgeo]
  case inodeSize => rwa [hgeo]
  case inodeSize_eq =>
    rw [hgeo, hsb]
    exact hsize_eq.trans (r16_congr fun i hi => (hcopy _ _ _ (by omega)).symm)
  case blocks => rwa [hgeo]
  case blocks_eq =>
    rw [hgeo, hsb]
    exact hblocks_eq.trans (r32_congr fun i hi => (hcopy _ _ _ (by omega)).symm)
  case inodes => rw [hgeo]; exact hino.2
  case ipg => rwa [hgeo]
  case bpg => exact hbpg
  case itb_lt => rw [hgeo]; exact r32_lt _ _

/-! ## The bytes -/

/-- The search stays among the bits of the volume. -/
theorem searched_lt {used : ℕ → Bool} {blocks hint k i run b : ℕ} (hpos : 0 < blocks)
    (hb : b ∈ searched used blocks hint n k i run) : b < blocks := by
  induction k generalizing i run with
  | zero => exact absurd hb List.not_mem_nil
  | succ k ih =>
    rw [searched] at hb
    rcases List.mem_cons.mp hb with rfl | hb
    · exact Nat.mod_lt _ hpos
    · split at hb
      · exact ih hb
      · split at hb
        · exact absurd hb List.not_mem_nil
        · exact ih hb

/-- What is found begins on the volume, whatever the hint is. -/
theorem findRun_lt {used : ℕ → Bool} {blocks hint k i run start : ℕ} (hpos : 0 < blocks)
    (hstart : run = 0 ∨ start < blocks)
    (h : findRun used blocks hint n k i run start = some first) :
    first < blocks := by
  induction k generalizing i run start with
  | zero => exact absurd h (by simp [findRun])
  | succ k ih =>
    have hbit : u32 (hint + i) % blocks < blocks := Nat.mod_lt _ hpos
    rw [findRun] at h
    split at h
    · exact ih (.inl rfl) h
    · have hbegin : (if run = 0 then u32 (hint + i) % blocks else start) < blocks := by
        split
        · exact hbit
        · next hz => exact hstart.resolve_left hz
      dsimp only at h
      split at h
      · exact Option.some.inj h ▸ hbegin
      · exact ih (.inr hbegin) h

theorem probed_subset {bitmap : Bytes} {l : List ℕ} {i : ℕ} (hi : i ∈ probed bitmap l) : i ∈ l := by
  induction l with
  | nil => exact hi
  | cons j l ih =>
    rw [probed] at hi
    rcases List.mem_cons.mp hi with rfl | hi
    · exact List.mem_cons_self
    · split at hi
      · exact List.mem_cons_of_mem _ (ih hi)
      · exact absurd hi List.not_mem_nil

/-- With no more bits than half a bitmap has, a run that is found ends in the bitmap, even when it
goes across the end of the volume. -/
theorem allocIndices_lt (hpos : 0 < s.geo.blocks)
    (hhalf : s.geo.bbb < s.geo.blocks → s.geo.blocks ≤ 16384) {i : ℕ} (hi : i ∈ s.allocIndices n) :
    i < kMaxBlockSize := by
  rw [kMaxBlockSize]
  rw [allocIndices] at hi
  split at hi
  · exact absurd hi List.not_mem_nil
  · next hn =>
    have hle := hhalf (by omega)
    dsimp only at hi
    rcases List.mem_append.mp hi with hi | hi
    · obtain ⟨b, hb, rfl⟩ := List.mem_map.mp hi
      have hlt := searched_lt hpos hb
      omega
    · split at hi
      · next first hfirst =>
        have hlt := findRun_lt hpos (.inl rfl) hfirst
        obtain ⟨k, hk, rfl⟩ := List.mem_map.mp hi
        have hk := List.mem_range.mp hk
        have hu : u32 (first + k) = first + k := Nat.mod_eq_of_lt (by omega)
        rw [hu]
        omega
      · exact absurd hi List.not_mem_nil

theorem inodeIndices_lt (hipg : s.geo.ipg ≤ 32768) {i : ℕ} (hi : i ∈ s.inodeIndices) :
    i < kMaxBlockSize := by
  rw [kMaxBlockSize]
  rw [inodeIndices] at hi
  split at hi
  · exact absurd hi List.not_mem_nil
  · obtain ⟨b, hb, rfl⟩ := List.mem_map.mp hi
    have hlt := List.mem_range.mp (probed_subset hb)
    omega

theorem freeIndices_lt {g : Geometry} (hblocks : g.blocks ≤ 32768)
    (hrun : g.bbb < g.blocks → n = 0 ∨ g.blocks < u32 (first + n) ∨ first + n < 2 ^ 32) {i : ℕ}
    (hi : i ∈ freeIndices g first n) : i < kMaxBlockSize := by
  rw [kMaxBlockSize]
  rw [freeIndices] at hi
  split at hi
  · exact absurd hi List.not_mem_nil
  · next hn =>
    have hlt : first + n < 2 ^ 32 := by
      rcases hrun (by omega) with h | h | h
      · exact absurd (.inl h) hn
      · exact absurd (.inr (.inl h)) hn
      · exact h
    have hu : u32 (first + n) = first + n := Nat.mod_eq_of_lt hlt
    obtain ⟨k, hk, rfl⟩ := List.mem_map.mp hi
    have hk := List.mem_range.mp hk
    have huk : u32 (first + k) = first + k := Nat.mod_eq_of_lt (by omega)
    rw [huk]
    omega

theorem bit_memcpy_zero {p q k : ℕ} (b : ℕ) :
    bit (memcpy (fun _ => 0) p (fun _ => 0) q k) b = false := by
  have hzero : memcpy (fun _ => 0) p (fun _ => 0) q k = fun _ => 0 := by
    funext a
    rw [memcpy]
    split
    · rfl
    · rfl
  rw [hzero, bit, UInt8.toNat_zero, Nat.zero_testBit]

/-- When nothing is in use and all is asked for, the run begins at the hint, and its end is as far
behind the end of the volume as the hint is in front of it. -/
theorem allocIndices_all (hbbb : s.geo.bbb < s.geo.blocks) (hlt : s.geo.blocks ≤ 2 ^ 16)
    (hhint : s.hint < s.geo.blocks)
    (hclear : ∀ b, bit (memcpy s.b1 0 (s.disk s.geo.bbb) 0 s.geo.bs) b = false) :
    (s.hint + (s.geo.blocks - 1)) / 8 ∈ s.allocIndices s.geo.blocks := by
  generalize hused : bit (memcpy s.b1 0 (s.disk s.geo.bbb) 0 s.geo.bs) = used at hclear
  have hfind : findRun used s.geo.blocks s.hint s.geo.blocks s.geo.blocks 0 0 0 = some s.hint := by
    have hfound : ∃ first,
        findRun used s.geo.blocks s.hint s.geo.blocks s.geo.blocks 0 0 0 = some first :=
      findRun_complete (j := 0) (by omega) (by omega) (by omega) (by omega) fun m _ _ _ => hclear _
    obtain ⟨first, hfirst⟩ := hfound
    obtain ⟨j, hj, he⟩ := findRun_index (by omega) (.inl rfl) hfirst
    obtain rfl : j = 0 := by omega
    rw [hfirst, he, Nat.add_zero, Nat.mod_eq_of_lt hhint]
  rw [allocIndices, if_neg (by omega)]
  dsimp only
  rw [hused, hfind]
  refine List.mem_append_right _ (List.mem_map.mpr ⟨s.geo.blocks - 1, ?_, ?_⟩)
  · exact List.mem_range.mpr (by omega)
  · have hu : u32 (s.hint + (s.geo.blocks - 1)) = s.hint + (s.geo.blocks - 1) :=
      Nat.mod_eq_of_lt (by omega)
    rw [hu]

/-! ## The entries -/

namespace Volume

namespace Mounted

variable (h : v.Mounted)

include h

theorem bs_ge : 1024 ≤ v.fs.geo.bs := by
  rcases h.bs with hb | hb | hb <;> omega

theorem bs_le : v.fs.geo.bs ≤ 4096 := by
  rcases h.bs with hb | hb | hb <;> omega

theorem ipb_pos : 0 < v.fs.geo.ipb := by
  rw [Geometry.ipb]
  rcases h.bs with hb | hb | hb <;> rcases h.inodeSize with hi | hi | hi <;> rw [hb, hi] <;> decide

/-- An entry does not go past the end of its block. -/
theorem slotOff_le (ino : ℕ) : v.fs.geo.slotOff ino + v.fs.geo.inodeSize ≤ v.fs.geo.bs := by
  have hr : (ino - 1) % v.fs.geo.ipb + 1 ≤ v.fs.geo.ipb := Nat.mod_lt _ h.ipb_pos
  calc v.fs.geo.slotOff ino + v.fs.geo.inodeSize
      = ((ino - 1) % v.fs.geo.ipb + 1) * v.fs.geo.inodeSize := by
        rw [Geometry.slotOff, Nat.succ_mul]
    _ ≤ v.fs.geo.ipb * v.fs.geo.inodeSize := Nat.mul_le_mul_right _ hr
    _ ≤ v.fs.geo.bs := Nat.div_mul_le_self _ _

theorem blocks_lt : v.fs.geo.blocks < 2 ^ 32 := h.blocks_eq ▸ r32_lt _ _

/-- A volume of fewer than `2 ^ 32` blocks has no upper half of the number. -/
theorem total_eq (hlt : v.total < 2 ^ 32) : v.total = v.fs.geo.blocks := by
  rw [total] at hlt
  rw [total, h.blocks_eq]
  split_ifs at hlt ⊢ <;> omega

/-- What the driver loads is what is at its slot. -/
theorem wp_loadInode_slot {ino : ℕ} (hino : v.fs.geo.IsIno ino) (hgeo : s.geo = v.fs.geo) :
    wp (loadInode ino) (fun _ t => ∀ j < s.geo.inodeSize, t.ino j =
      s.disk (s.geo.slotBlock ino) (s.geo.slotOff ino + j))
      (fun _ => ¬s.geo.slotBlock ino < s.geo.blocks) s := by
  have hoff := h.slotOff_le ino
  rw [loadInode, wp_bind, wp_get, wp_bind, wp_guard]
  refine ⟨fun _ => ?_, fun hn => absurd ?_ hn⟩
  · rw [wp_bind, wp_readB1]
    refine ⟨fun _ j hj => ?_, id⟩
    change memcpy s.ino 0 (memcpy s.b1 0 (s.disk (s.geo.slotBlock ino)) 0 s.geo.bs)
      (s.geo.slotOff ino) s.geo.inodeSize j = _
    rw [hgeo] at hj ⊢
    rw [memcpy_zero_of_lt hj, memcpy_zero_of_lt (by omega), Nat.zero_add]
  · rw [hgeo]
    exact ⟨Nat.pos_iff_ne_zero.mp hino.1, hino.2⟩

theorem loads {ino : ℕ} (hino : v.fs.geo.IsIno ino)
    (hlt : v.fs.geo.slotBlock ino < v.fs.geo.blocks) (hgeo : s.geo = v.fs.geo) :
    Loads s ino (v.fs.geo.slotBlock ino) (v.fs.geo.slotOff ino) := by
  have hwp := h.wp_loadInode_slot hino hgeo
  rcases hx : exec (loadInode ino) s with ⟨_ | ⟨⟩, t⟩
  · have hn := wp_of_none hwp hx
    rw [hgeo] at hn
    exact absurd hlt hn
  · refine ⟨t, hx, ?_⟩
    have ht := wp_of_some hwp hx
    rwa [hgeo] at ht ⊢

/-- An inode is loaded from nowhere else, whatever is on the disk: one byte can be what tells. -/
theorem slot_of_loads {ino blk off : ℕ} (hino : v.fs.geo.IsIno ino)
    (hl : ∀ s : Fs, s.geo = v.fs.geo → Loads s ino blk off) :
    blk = v.fs.geo.slotBlock ino ∧ off = v.fs.geo.slotOff ino := by
  let s : Fs := { v.fs with disk := fun b a => if b = blk ∧ a = off then 1 else 0 }
  have hpos : 0 < s.geo.inodeSize := by
    change 0 < v.fs.geo.inodeSize
    rcases h.inodeSize with hi | hi | hi <;> omega
  obtain ⟨t, hx, hj⟩ := hl s rfl
  have hone : t.ino 0 = 1 := (hj 0 hpos).trans (if_pos ⟨rfl, Nat.add_zero off⟩)
  have hslot := wp_of_some (h.wp_loadInode_slot (s := s) hino rfl) hx 0 hpos
  by_contra hne
  have hzero : s.disk (s.geo.slotBlock ino) (s.geo.slotOff ino + 0) = 0 :=
    if_neg fun he => hne ⟨he.1.symm, he.2.symm⟩
  rw [hone, hzero] at hslot
  exact absurd hslot (by decide)

end Mounted

/-! ## What is taken for granted, and what is checked -/

theorem groups_eq_one (hpos : 0 < v.total) (hfd : v.firstData = 0) (hgroup : v.total ≤ v.bpg) :
    v.groups = 1 := by
  rw [groups, hfd, Nat.sub_zero]
  exact Nat.div_eq_of_lt_le (by omega) (by omega)

/-- The entries of the only group. -/
theorem entry_of_group (hgroups : v.groups = 1) {ino : ℕ} (hlt : ino - 1 < v.fs.geo.ipg) :
    v.entry ino = some (v.tableOf 0 + (ino - 1) / (v.fs.geo.bs / v.inodeBytes),
      (ino - 1) % (v.fs.geo.bs / v.inodeBytes) * v.inodeBytes) := by
  rw [entry, Nat.div_eq_of_lt hlt, Nat.mod_eq_of_lt hlt, hgroups, if_pos one_pos]

theorem Fits.handles (h : v.Mounted) (hf : v.Fits first n) : v.Handles first n := by
  have hbs := h.bs_le
  have hblocks := hf.blocks
  have htotal := h.total_eq (by omega)
  have hpos : 0 < v.fs.geo.blocks := Nat.zero_lt_of_lt h.blocks
  have hgroups := groups_eq_one (by omega) hf.firstData hf.group
  constructor
  case blocks => exact hf.blocks
  case ipg => exact hf.ipg
  case denotes =>
    intro i hi
    have hlt : i < v.bpg := lt_of_lt_of_le hi hf.group
    rw [place, hf.firstData, Nat.sub_zero, Nat.div_eq_of_lt hlt, Nat.mod_eq_of_lt hlt, hf.ratio,
      Nat.div_one, hf.bitmapOf, if_pos ⟨Nat.zero_le i, hi, hf.init⟩]
  case entries =>
    intro ino hino
    have hlt : ino - 1 < v.fs.geo.ipg := by
      have := hino.1
      have := hino.2
      have := hf.inodes
      omega
    have hslot : v.fs.geo.itb + (ino - 1) / v.fs.geo.ipb < v.fs.geo.blocks := by
      have hle : (ino - 1) / v.fs.geo.ipb ≤ (v.fs.geo.inodes - 1) / v.fs.geo.ipb :=
        Nat.div_le_div_right (Nat.sub_le_sub_right hino.2 1)
      have := hf.table
      omega
    have hsame : v.fs.geo.slotBlock ino = v.fs.geo.itb + (ino - 1) / v.fs.geo.ipb :=
      Nat.mod_eq_of_lt (hslot.trans h.blocks_lt)
    refine ⟨v.fs.geo.slotBlock ino, v.fs.geo.slotOff ino, ?_, by rwa [hsame],
      fun s hgeo => h.loads hino (by rwa [hsame]) hgeo⟩
    rw [entry_of_group hgroups hlt, hf.tableOf, hf.inodeBytes, hsame]
    rfl
  case alloc =>
    intro s m hgeo i hi
    exact allocIndices_lt (hgeo ▸ hpos) (hgeo ▸ hf.half) hi
  case inode =>
    intro s hgeo i hi
    have hipg := hf.ipg
    rw [← hgeo] at hipg hbs
    exact inodeIndices_lt (by omega) hi
  case free =>
    intro i hi
    exact freeIndices_lt (by omega) hf.run hi

/-- With room for the bits, block 0 has one, and the last block has one in the same group. -/
theorem Handles.groups (h : v.Mounted) (hh : v.Handles first n) :
    v.firstData = 0 ∧ v.total ≤ v.bpg ∧ v.ratio = 1 ∧ v.uninit 0 = false ∧
      v.bitmapOf 0 = v.fs.geo.bbb := by
  have hbs := h.bs_le
  have hblocks := hh.blocks
  have htotal := h.total_eq (by omega)
  have hfirst := h.blocks
  have hzero := hh.denotes 0 (by omega)
  rw [place] at hzero
  split at hzero
  · next hc =>
    have hfd : v.firstData = 0 := Nat.le_zero.mp hc.1
    have hinit := hc.2.2
    rw [hfd, Nat.sub_self, Nat.zero_div] at hzero hinit
    rw [hfd] at hfirst
    have hbits : ∀ i < v.total, i % v.bpg / v.ratio = i := by
      intro i hi
      have hplace := hh.denotes i hi
      rw [place, hfd, Nat.sub_zero] at hplace
      split at hplace
      · exact congrArg Prod.snd (Option.some.inj hplace)
      · exact absurd hplace.symm (Option.some_ne_none _)
    have hgroup : v.total ≤ v.bpg := by
      have hlast := hbits (v.total - 1) (by omega)
      have hle := Nat.div_le_self ((v.total - 1) % v.bpg) v.ratio
      have hmod := Nat.mod_lt (v.total - 1) h.bpg
      omega
    have htwo : 2 ≤ v.total := by
      rw [u32] at hfirst
      omega
    have hone := hbits 1 htwo
    rw [Nat.mod_eq_of_lt (by omega)] at hone
    have hratio : v.ratio = 1 := by
      rcases Nat.lt_trichotomy v.ratio 1 with hr | hr | hr
      · rw [Nat.lt_one_iff.mp hr, Nat.div_zero] at hone
        exact absurd hone (by decide)
      · exact hr
      · rw [Nat.div_eq_of_lt hr] at hone
        exact absurd hone (by decide)
    exact ⟨hfd, hgroup, hratio, hinit, congrArg Prod.fst (Option.some.inj hzero)⟩
  · exact absurd hzero.symm (Option.some_ne_none _)

/-- The first entries are where the driver looks for them, and the last one is in group 0 as
well. -/
theorem Handles.table (h : v.Mounted) (hh : v.Handles first n) (hgroups : v.groups = 1) :
    v.tableOf 0 = v.fs.geo.itb ∧ v.inodeBytes = v.fs.geo.inodeSize ∧
      v.fs.geo.inodes ≤ v.fs.geo.ipg ∧
      v.fs.geo.itb + (v.fs.geo.inodes - 1) / v.fs.geo.ipb < v.fs.geo.blocks := by
  have htwo := h.inodes
  have hgroup : ∀ ino, v.fs.geo.IsIno ino → ino - 1 < v.fs.geo.ipg := by
    intro ino hino
    obtain ⟨blk, off, hentry, -⟩ := hh.entries ino hino
    rw [entry, hgroups] at hentry
    split at hentry
    · next hlt => exact (Nat.div_eq_zero_iff_lt h.ipg).mp (Nat.lt_one_iff.mp hlt)
    · exact absurd hentry nofun
  have hslot : ∀ ino, v.fs.geo.IsIno ino →
      v.tableOf 0 + (ino - 1) / (v.fs.geo.bs / v.inodeBytes) = v.fs.geo.slotBlock ino ∧
      (ino - 1) % (v.fs.geo.bs / v.inodeBytes) * v.inodeBytes = v.fs.geo.slotOff ino ∧
      v.fs.geo.slotBlock ino < v.fs.geo.blocks := by
    intro ino hino
    obtain ⟨blk, off, hentry, hblk, hl⟩ := hh.entries ino hino
    obtain ⟨rfl, rfl⟩ := h.slot_of_loads hino hl
    rw [entry_of_group hgroups (hgroup ino hino)] at hentry
    obtain ⟨hb, ho⟩ := Prod.mk.inj (Option.some.inj hentry)
    exact ⟨hb, ho, hblk⟩
  -- inode 1 is at the start of the table
  have htable : v.tableOf 0 = v.fs.geo.itb := by
    have hone := (hslot 1 ⟨one_pos, by omega⟩).1
    rw [Nat.sub_self, Nat.zero_div, Nat.add_zero, Geometry.slotBlock, Nat.sub_self, Nat.zero_div,
      Nat.add_zero] at hone
    exact hone.trans (Nat.mod_eq_of_lt h.itb_lt)
  -- and inode 2 is behind it
  have hsize : v.inodeBytes = v.fs.geo.inodeSize := by
    have hipb : ∀ sz, sz = 128 ∨ sz = 256 ∨ sz = 512 → 1 % (v.fs.geo.bs / sz) * sz = sz := by
      intro sz hsz
      rcases h.bs with hb | hb | hb <;> rcases hsz with rfl | rfl | rfl <;> rw [hb]
    have hinode : v.inodeBytes = 128 ∨ v.inodeBytes = 256 ∨ v.inodeBytes = 512 := by
      rw [inodeBytes, ← h.inodeSize_eq]
      split
      · exact .inl rfl
      · exact h.inodeSize
    have htwo := (hslot 2 ⟨two_pos, htwo⟩).2.1
    rwa [Geometry.slotOff, Geometry.ipb, hipb _ hinode, hipb _ h.inodeSize] at htwo
  have hlast := hslot v.fs.geo.inodes ⟨by omega, le_rfl⟩
  have hipg := hgroup v.fs.geo.inodes ⟨by omega, le_rfl⟩
  refine ⟨htable, hsize, by omega, ?_⟩
  have hb := hlast.1
  rw [htable, hsize] at hb
  exact hb ▸ hlast.2.2

theorem Handles.fits (h : v.Mounted) (hfirst : first < 2 ^ 32) (hh : v.Handles first n) :
    v.Fits first n := by
  have hbs := h.bs_le
  have hblocks := hh.blocks
  have htotal := h.total_eq (by omega)
  have hpos : 0 < v.fs.geo.blocks := Nat.zero_lt_of_lt h.blocks
  obtain ⟨hfd, hgroup, hratio, hinit, hbitmap⟩ := hh.groups h
  obtain ⟨htable, hsize, hinodes, hend⟩ := hh.table h (groups_eq_one (by omega) hfd hgroup)
  constructor
  case blocks => exact hblocks
  case ipg => exact hh.ipg
  case firstData => exact hfd
  case group => exact hgroup
  case ratio => exact hratio
  case init => exact hinit
  case bitmapOf => exact hbitmap
  case tableOf => exact htable
  case inodeBytes => exact hsize
  case inodes => exact hinodes
  case table => exact hend
  case half =>
    intro hbbb
    -- nothing is in use, the search begins at the last block, and all blocks are asked for
    let s : Fs :=
      { v.fs with b1 := fun _ => 0, disk := fun _ _ => 0, hint := v.fs.geo.blocks - 1 }
    have hlt : s.hint < s.geo.blocks := Nat.sub_lt hpos one_pos
    have hle : s.geo.blocks ≤ 2 ^ 16 := by
      change v.fs.geo.blocks ≤ 2 ^ 16
      omega
    have hlast := hh.alloc s s.geo.blocks rfl _ (allocIndices_all hbbb hle hlt bit_memcpy_zero)
    have hhint : s.hint = v.fs.geo.blocks - 1 := rfl
    have hcount : s.geo.blocks = v.fs.geo.blocks := rfl
    rw [hhint, hcount, kMaxBlockSize] at hlast
    omega
  case run =>
    intro hbbb
    by_contra hn
    obtain ⟨hzero, hend⟩ := not_or.mp hn
    obtain ⟨hle, hwrap⟩ := not_or.mp hend
    have hmem : u32 (first + (2 ^ 32 - 1 - first)) / 8 ∈ freeIndices v.fs.geo first n := by
      rw [freeIndices, if_neg (by omega)]
      exact List.mem_map.mpr ⟨2 ^ 32 - 1 - first, List.mem_range.mpr (by omega), rfl⟩
    have hi := hh.free _ hmem
    rw [kMaxBlockSize, u32] at hi
    omega

end Volume

/-- **When the driver can work with what it has mounted.** -/
theorem handles_iff (h : mount dev lba s = some v) (hfirst : first < 2 ^ 32) :
    v.Handles first n ↔ v.Fits first n :=
  ⟨fun hh => hh.fits (mounted_of_mount h) hfirst, fun hf => hf.handles (mounted_of_mount h)⟩

/-! ## Two drives -/

/-- A drive that holds zeroes but for some bytes: a sector, a place in it, and a byte. -/
def driveOf (l : List (ℕ × ℕ × UInt8)) : Drive := fun sector a =>
  match l.find? fun e => e.1 = sector ∧ e.2.1 = a with
  | some e => e.2.2
  | none => 0

/-- A partition table with a partition of type 0x83 from sector 1 on. -/
def partTable : List (ℕ × ℕ × UInt8) :=
  [(0, 510, 0x55), (0, 511, 0xAA), (0, 0x1C2, 0x83), (0, 0x1C6, 1)]

/-- 16 blocks of 4096 bytes, 16 inodes of 256 bytes, and a root directory in block 4. -/
def plainDrive : Drive := driveOf <| partTable ++
  [(3, 0x38, 0x53), (3, 0x39, 0xEF), (3, 0x18, 2), (3, 0x04, 16), (3, 0x00, 16), (3, 0x21, 0x80),
    (3, 0x28, 16), (3, 0x4C, 1), (3, 0x59, 1), (9, 0, 2), (9, 4, 3), (9, 8, 4), (33, 0x101, 0x40)]

/-- 16 blocks of 1024 bytes, of which block 0 is in no group, as is usual for blocks of this
size. -/
def kiloDrive : Drive := driveOf <| partTable ++
  [(3, 0x38, 0x53), (3, 0x39, 0xEF), (3, 0x14, 1), (3, 0x04, 16), (3, 0x00, 16), (3, 0x21, 0x20),
    (3, 0x28, 16), (3, 0x4C, 1), (3, 0x58, 0x80), (5, 0, 3), (5, 4, 4), (5, 8, 5), (11, 0x81, 0x40)]

theorem plain_isSome : (mount plainDrive 0 filed).isSome = true := by decide +kernel

theorem kilo_isSome : (mount kiloDrive 0 filed).isSome = true := by decide +kernel

theorem plain_fits : ((mount plainDrive 0 filed).get plain_isSome).Fits 9 3 := by
  constructor <;> decide +kernel

theorem handles_plain : ((mount plainDrive 0 filed).get plain_isSome).Handles 9 3 :=
  (handles_iff (Option.some_get plain_isSome).symm (by decide)).mpr plain_fits

/-- A volume of blocks of 1024 bytes is mounted, and bit 0 does not stand for block 0. -/
theorem kilo_not_handled : ∃ v, mount kiloDrive 0 filed = some v ∧ ¬v.Handles 9 3 := by
  refine ⟨_, (Option.some_get kilo_isSome).symm, fun hh => ?_⟩
  have hzero := hh.denotes 0 (by decide +kernel)
  have hnone : ((mount kiloDrive 0 filed).get kilo_isSome).place 0 = none := by decide +kernel
  rw [hnone] at hzero
  simp at hzero

end Fs

end Aurisys
