import Aurisys.Fs.Disk
import Aurisys.Fs.Path

/-!
# Directories and files

The upper half of `fs.cpp`: directory blocks, lookup, and the operations that make, write and remove
files and directories.

A directory block is a chain of records, each with its own length. `list_dir` hands the records to a
callback, which says when it has seen enough. The loops over records stop at the end of the block,
and as no record is shorter than 8 bytes they are given as many rounds as the block has bytes.

What goes past the end of a block buffer, in a block whose last record is not as long as its own
name, stays in that buffer here.

## Main definitions

* `listDir`, `lookupAbs`, `dirAddEntry`
* `read`, `writeFile`, `writeAt`, `mkdir`, `rm`
-/

namespace Aurisys

open Bytes Path

namespace Fs

/-! ## Directory blocks -/

/-- What the callback of `list_dir` is given. -/
structure Dirent where
  ino : ℕ
  name : Str
  type : ℕ
deriving DecidableEq

/-- The bytes of a string that starts at `p` and has no more than `n`. -/
def strAt (m : Bytes) (p n : ℕ) : Str := ((List.range n).map fun i => m (p + i)).takeWhile (· ≠ 0)

/-- A string as memory. -/
def ofStr (s : Str) : Bytes := fun i => s.getD i 0

/-- The records of a block that `list_dir` tells the callback about, from `off` on. -/
def dirents (blk : Bytes) (bs : ℕ) : ℕ → ℕ → List Dirent
  | 0, _ => []
  | fuel + 1, off =>
    let reclen := r16 blk (off + 4)
    if bs < off + 8 ∨ reclen < 8 ∨ bs < off + reclen then []
    else
      let nlen := (blk (off + 6)).toNat
      let rest := dirents blk bs fuel (off + reclen)
      if r32 blk off ≠ 0 ∧ 0 < nlen then
        ⟨r32 blk off, strAt blk (off + 8) nlen, (blk (off + 7)).toNat⟩ :: rest
      else rest

/-- The callback sees one record after the other until it answers `false`. The result says whether
it never did, and how many it saw. -/
def callAll {γ : Type} (cb : Dirent → γ → Bool × γ) : List Dirent → ℕ → γ → Bool × ℕ × γ
  | [], count, ctx => (true, count, ctx)
  | d :: ds, count, ctx =>
    match cb d ctx with
    | (true, ctx) => callAll cb ds (count + 1) ctx
    | (false, ctx) => (false, count + 1, ctx)

/-- The directory is loaded again, and one of its blocks is read into `g_b2`. -/
def readDirBlock (dirIno b : ℕ) : Act ℕ := do
  loadInode dirIno
  let s ← get
  guard (IsDir s.ino)
  let phys ← mapLblock b
  readB2 phys
  return phys

/-- The loop of `list_dir` over the blocks. -/
def listBlocks {γ : Type} (cb : Dirent → γ → Bool × γ) (dirIno : ℕ) : List ℕ → ℕ → γ → Act (ℕ × γ)
  | [], count, ctx => return (count, ctx)
  | b :: bs, count, ctx => do
    let _ ← readDirBlock dirIno b
    let s ← get
    match callAll cb (dirents s.b2 s.geo.bs s.geo.bs 0) count ctx with
    | (true, count, ctx) => listBlocks cb dirIno bs count ctx
    | (false, count, ctx) => return (count, ctx)

/-- `list_dir`: how many records the callback saw, and what it made of them. -/
def listDir {γ : Type} (cb : Dirent → γ → Bool × γ) (dirIno : ℕ) (ctx : γ) : Act (ℕ × γ) := do
  loadInode dirIno
  let s ← get
  guard (IsDir s.ino)
  listBlocks cb dirIno (List.range (s.geo.blocksOf (inodeSize s.ino))) 0 ctx

/-! ## Lookup -/

/-- The callback of `lookup_abs`. -/
def findName (want : Str) (d : Dirent) (found : Option Dirent) : Bool × Option Dirent :=
  if d.name = want then (false, some d) else (true, found)

/-- The loop of `lookup_abs`. -/
def lookupFrom : List Str → ℕ → Act ℕ
  | [], ino => return ino
  | want :: rest, ino => do
    let (_, found) ← listDir (findName want) ino none
    let d ← Fallible.ofOption found
    lookupFrom rest d.ino

/-- The components that `lookup_abs` sees. It goes on behind the zero at the end of the last one;
the copy of the path is filled up with zeroes, if there is room for one. -/
def copied (path : Str) (stack : Stack) : List Str :=
  let p := path.take 255
  if p.length = 255 ∧ p.getLast? ≠ some slash then components p ++ stack.components
  else components p

/-- `lookup_abs`. -/
def lookupAbs (path : Str) : Act ℕ := do
  let s ← get
  lookupFrom (copied path s.stack) kRootIno

/-- What `getstat` tells. -/
structure Stat where
  ino : ℕ
  size : ℕ
  mode : ℕ
  blocks : ℕ
  links : ℕ

/-- `getstat`. -/
def getstat (ino : ℕ) : Act Stat := do
  loadInode ino
  let s ← get
  return ⟨ino, inodeSize s.ino, r16 s.ino 0, r32 s.ino 0x1C, r16 s.ino 0x1A⟩

/-! ## Reading -/

/-- The loop of `read`, with the bytes it has copied so far. A block that is not there ends it. -/
def readLoop (len off : ℕ) : ℕ → List UInt8 → Act (List UInt8)
  | 0, out => return out
  | fuel + 1, out => do
    let s ← get
    let at_ := u32 (off + out.length)
    let inblk := at_ % s.geo.bs
    let take := min (s.geo.bs - inblk) (len - out.length)
    if out.length < len then
      let phys ← Fallible.attempt (do
        let phys ← mapLblock (at_ / s.geo.bs)
        readB1 phys)
      let s ← get
      if phys.isSome then
        readLoop len off fuel (out ++ (List.range take).map fun i => s.b1 (inblk + i))
      else return out
    else return out

/-- `read`: the bytes it copies. -/
def read (ino len off : ℕ) : Act (List UInt8) := do
  loadInode ino
  let s ← get
  guard (IsFile s.ino)
  let size := inodeSize s.ino
  guard (off < size)
  let len := min len (size - off)
  readLoop len off len []

/-! ## Adding an entry -/

/-- `dirent_used`. -/
def direntUsed (nameLen : ℕ) : ℕ := 8 + (nameLen + 3) / 4 * 4

/-- The loop of `dir_add_entry` over the records of a block: where the last one is, and how much of
it is in use. -/
def tailEntry (blk : Bytes) (bs : ℕ) : ℕ → ℕ → ℕ → ℕ → Option (ℕ × ℕ)
  | 0, _, lastOff, lastUsed => some (lastOff, lastUsed)
  | fuel + 1, off, lastOff, lastUsed =>
    let rc := r16 blk (off + 4)
    if bs < off + 8 then some (lastOff, lastUsed)
    else if rc < 8 ∨ bs < off + rc then none
    else tailEntry blk bs fuel (off + rc) off (direntUsed (blk (off + 6)).toNat)

/-- A record at `off`. -/
def putDirent (b : Bytes) (off ino recLen : ℕ) (name : Str) (type : ℕ) : Bytes :=
  memcpy (w8 (w8 (w16 (w32 b off ino) (off + 4) recLen) (off + 6) name.length) (off + 7) type)
    (off + 8) (ofStr name) 0 name.length

/-- `g_b2` is written to a block. -/
def setWriteB2 (f : Fs → Bytes) (phys : ℕ) : Act Unit := do
  modify fun s => s.setB2 (f s)
  writeB2 phys

/-- One round of the loop of `dir_add_entry`: whether there was room behind the last record. -/
def addInBlock (dirIno : ℕ) (name : Str) (ino type b : ℕ) : Act Bool := do
  let phys ← readDirBlock dirIno b
  let s ← get
  let (lastOff, lastUsed) ← Fallible.ofOption (tailEntry s.b2 s.geo.bs s.geo.bs 0 0 0)
  let slack := u32 (s.geo.bs - lastOff + 2 ^ 32 - lastUsed)
  if direntUsed name.length ≤ slack then do
    let newOff := lastOff + lastUsed
    setWriteB2 (fun s => putDirent (w16 s.b2 (lastOff + 4) lastUsed) newOff ino
      (u32 (s.geo.bs + 2 ^ 32 - newOff)) name type) phys
    return true
  else return false

/-- The loop of `dir_add_entry` over the blocks. -/
def addInBlocks (dirIno : ℕ) (name : Str) (ino type : ℕ) : List ℕ → Act Bool
  | [] => return false
  | b :: bs => do
    if ← addInBlock dirIno name ino type b then return true
    else addInBlocks dirIno name ino type bs

/-- An extent goes into the next slot of an inode image. -/
def addExtent (img : Bytes) (lblock len first : ℕ) : Bytes :=
  let entries := r16 img 0x2A
  let ee := 0x34 + entries * 12
  w16 (w32 (w16 (w32 img ee lblock) (ee + 4) len) (ee + 8) first) 0x2A (entries + 1)

/-- The end of `dir_add_entry`: the directory gets another block. -/
def growDir (dirIno : ℕ) (name : Str) (ino type size nblk : ℕ) : Act Unit := do
  let phys ← allocBlocks 1
  setWriteB2 (fun s => w8 (w16 (w32 (memset s.b2 0 0 s.geo.bs) 0 0) 4 s.geo.bs) 6 0) phys
  loadInode dirIno
  let s ← get
  guard (IsDir s.ino)
  guard (r16 s.ino 0x2A < 4)
  modify fun s => s.setIno <|
    let img := w32 (addExtent s.ino nblk 1 phys) 4 (size + s.geo.bs)
    w32 img 0x1C (r32 img 0x1C + s.geo.bs / 512)
  setWriteB2 (fun s => putDirent s.b2 0 ino s.geo.bs name type) phys
  storeInode dirIno

/-- `dir_add_entry`. -/
def dirAddEntry (dirIno : ℕ) (name : Str) (ino type : ℕ) : Act Unit := do
  let s ← get
  guard (direntUsed name.length ≤ s.geo.bs)
  loadInode dirIno
  let s ← get
  guard (IsDir s.ino)
  let size := inodeSize s.ino
  let nblk := s.geo.blocksOf size
  let added ← addInBlocks dirIno name ino type (List.range nblk)
  if added then return else growDir dirIno name ino type size nblk

/-! ## Writing whole files -/

/-- The loop of `write_blocks` that fills the blocks of an extent. -/
def fillBlocks (data : Bytes) (len first d n : ℕ) : Act Unit :=
  (List.range n).forM fun i => do
    let d := d + i * (← get).geo.bs
    modify fun s => s.setB1 (memcpy (memset s.b1 0 0 s.geo.bs) 0 data d (min (len - d) s.geo.bs))
    writeB1 (u32 (first + i))

/-- The loop of `write_blocks`. Each round takes an extent, and there are four of them. -/
def writeBlocksLoop (data : Bytes) (len lstart total : ℕ) : ℕ → ℕ → ℕ → Act ℕ
  | 0, _, _ => failure
  | fuel + 1, done, used => do
    if total ≤ done then return used
    else do
      let chunk := min (total - done) 32767
      let s ← get
      guard (r16 s.ino 0x2A < 4)
      let first ← allocBlocks chunk
      let s ← get
      fillBlocks data len first (done * s.geo.bs) chunk
      modify fun s => s.setIno (addExtent s.ino (lstart + done) chunk first)
      writeBlocksLoop data len lstart total fuel (done + chunk) (used + chunk)

/-- `write_blocks`. -/
def writeBlocks (data : Bytes) (len lstart : ℕ) : Act ℕ := do
  let s ← get
  let used ← writeBlocksLoop data len lstart (s.geo.blocksOf len) 5 0 0
  guard (used ≠ 0)
  return used

/-- An extent of an inode image. -/
def extentAt (img : Bytes) (i : ℕ) : ℕ × ℕ :=
  let e := 0x34 + i * 12
  (extStart img e, extLen img e)

/-- `inline_extents`. -/
def inlineExtents (img : Bytes) : Option (List (ℕ × ℕ)) :=
  if r32 img 0x20 &&& kExtentsFl = 0 ∨ r16 img 0x2E ≠ 0 ∨ 4 < r16 img 0x2A then none
  else some ((List.range (r16 img 0x2A)).map (extentAt img))

/-- The blocks of the old extents are freed; the result says how many. -/
def freeExtents : List (ℕ × ℕ) → Act ℕ
  | [] => return 0
  | (first, len) :: l => do
    freeBlocksAt first len
    let freed ← freeExtents l
    return len + freed

/-- The image that `write_file` starts a file with. -/
def freshFile (len : ℕ) : Bytes :=
  w16 (w16 (w16 (w16 (w32 (w32 (w16 (w32 (w16 (fun _ => 0) 0 0x81A4) 4 len) 0x1A 1) 0x20 kExtentsFl)
    0x1C 0) 0x28 kExtMagic) 0x2A 0) 0x2C 4) 0x2E 0

/-- What `resolve` makes of a path, its last component, and the directory that is in. -/
def locate (base : Option Str) (path : Str) : Act (Str × Str × ℕ) := do
  let abs ← Fallible.ofOption (resolve path base 256)
  guard (lastName abs ≠ [])
  let parentIno ← lookupAbs (parentPath abs)
  return (abs, lastName abs, parentIno)

/-- The image of a file without blocks, and the blocks of its contents: what `write_file` does when
it creates a file and when it truncates one. -/
def writeFresh (data : Bytes) (len : ℕ) : Act ℕ := do
  modify fun s => s.setIno (freshFile len)
  if len = 0 then return 0
  else do
    let used ← writeBlocks data len 0
    modify fun s => s.setIno (w32 s.ino 0x1C (used * (s.geo.bs / 512)))
    return used

/-- `write_file` where there is no such file. -/
def createFile (parentIno : ℕ) (name : Str) (data : Bytes) (len : ℕ) : Act Unit := do
  let ino ← allocInode
  let used ← writeFresh data len
  storeInode ino
  dirAddEntry parentIno name ino 1
  commitCounts used 1 0

/-- `write_file` with `O_TRUNC`. -/
def truncateFile (ino : ℕ) (data : Bytes) (len : ℕ) : Act Unit := do
  let s ← get
  let oldExt ← Fallible.ofOption (inlineExtents s.ino)
  let used ← writeFresh data len
  storeInode ino
  let freed ← freeExtents oldExt
  commitCounts (used - freed) 0 0

/-- The part of `write_file` with `O_APPEND` that fills up the last block; the result says with how
many bytes. -/
def fillTail (oldSize : ℕ) (data : Bytes) (len : ℕ) : Act ℕ := do
  let s ← get
  let inblk := oldSize % s.geo.bs
  if inblk = 0 then return 0
  else do
    let n := min (s.geo.bs - inblk) len
    let phys ← mapLblock (oldSize / s.geo.bs)
    readB2 phys
    setWriteB2 (fun s => memcpy s.b2 inblk data 0 n) phys
    return n

/-- The blocks for what is left of the data. -/
def appendBlocks (data : Bytes) (d len lstart : ℕ) : Act ℕ :=
  if d < len then writeBlocks (fun i => data (d + i)) (len - d) lstart else return 0

/-- `write_file` with `O_APPEND`. -/
def appendFile (ino : ℕ) (data : Bytes) (len : ℕ) : Act Unit := do
  let s ← get
  guard (r32 s.ino 0x20 &&& kExtentsFl ≠ 0)
  let oldSize := inodeSize s.ino
  let d ← fillTail oldSize data len
  let used ← appendBlocks data d len (s.geo.blocksOf oldSize)
  modify fun s => s.setIno <|
    let img := w32 s.ino 4 (oldSize + len)
    w32 img 0x1C (r32 img 0x1C + used * (s.geo.bs / 512))
  storeInode ino
  commitCounts used 0 0

def oCreat : ℕ := 0x40

def oTrunc : ℕ := 0x200

def oAppend : ℕ := 0x400

/-- `write_file`. -/
def writeFile (base : Option Str) (path : Str) (data : Bytes) (len flags : ℕ) : Act Unit := do
  guard ¬(flags &&& oTrunc ≠ 0 ∧ flags &&& oAppend ≠ 0)
  let (abs, name, parentIno) ← locate base path
  match ← Fallible.attempt (lookupAbs abs) with
  | none => createFile parentIno name data len
  | some ino => do
    guard (flags &&& (oTrunc ||| oAppend) ≠ 0)
    loadInode ino
    let s ← get
    guard (IsFile s.ino)
    if flags &&& oTrunc ≠ 0 then truncateFile ino data len else appendFile ino data len

/-! ## Writing at an offset -/

/-- The loop of `write_at`, with the number of blocks it has taken. -/
def writeAtLoop (buf : Bytes) (off len oldSize : ℕ) : ℕ → ℕ → ℕ → Act ℕ
  | 0, _, _ => failure
  | fuel + 1, done, total => do
    if len ≤ done then return total
    else do
      let s ← get
      let bs := s.geo.bs
      let at_ := u32 (off + done)
      let lblock := at_ / bs
      let inblk := at_ % bs
      let chunk := min (bs - inblk) (len - done)
      match ← Fallible.attempt (mapLblock lblock) with
      | some phys =>
        readB1 phys
        modify fun s => s.setB1 (memcpy s.b1 inblk buf done chunk)
        writeB1 phys
        writeAtLoop buf off len oldSize fuel (done + chunk) total
      | none => do
        guard (oldSize ≤ at_)
        let s ← get
        guard (r16 s.ino 0x2A < 4)
        let need := u32 (off + len + (2 ^ 32 - lblock * bs) + bs - 1) / bs
        guard (need ≠ 0 ∧ need ≤ 32767)
        let first ← allocBlocks need
        modify fun s => s.setIno <|
          let img := addExtent s.ino lblock need first
          w32 img 0x1C (r32 img 0x1C + need * (bs / 512))
        writeAtLoop buf off len oldSize fuel done (total + need)

/-- The zeroes of `write_at`, and what is behind them. -/
def zeroes (stack : Stack) : Bytes := fun i => if i < 512 then 0 else stack.zeroes (i - 512)

/-- The loop of `write_at` that fills the gap between the old end and `off`, one block at a time. -/
def fillGap (write : Bytes → ℕ → ℕ → Act Unit) (off : ℕ) : ℕ → ℕ → Act Unit
  | 0, _ => failure
  | fuel + 1, at_ => do
    if off ≤ at_ then return
    else do
      let s ← get
      let chunk := min (off - at_) (s.geo.bs - at_ % s.geo.bs)
      write (zeroes s.stack) at_ chunk
      fillGap write off fuel (at_ + chunk)

/-- The body of `write_at`, with the calls it makes to itself. -/
def writeAtBody (self : Bytes → ℕ → ℕ → Act Unit) (ino : ℕ) (buf : Bytes) (off len : ℕ) :
    Act Unit := do
  loadInode ino
  let s ← get
  guard (IsFile s.ino)
  guard (r16 s.ino 0x2E = 0)
  let oldSize := inodeSize s.ino
  fillGap self off (off - oldSize + 1) oldSize
  let s ← get
  let oldSize := inodeSize s.ino
  let total ← writeAtLoop buf off len oldSize (len + 5) 0 0
  modify fun s => s.setIno <|
    if oldSize < u32 (off + len) then w32 s.ino 4 (u32 (off + len)) else s.ino
  storeInode ino
  commitCounts total 0 0

/-- `write_at`. The call that fills a part of the gap starts at the end of the file and does not
fill one itself. -/
def writeAt (ino : ℕ) (buf : Bytes) (off len : ℕ) : Act Unit :=
  writeAtBody (writeAtBody (fun _ _ _ => failure) ino) ino buf off len

/-! ## Directories -/

/-- The image `mkdir` starts a directory with. -/
def freshDir (bs phys : ℕ) : Bytes :=
  w32
    (w16 (w32 (w16 (w16 (w16 (w16 (w32 (w32 (w16 (w32 (w16 (fun _ => 0) 0 0x41ED) 4 bs) 0x1A 2) 0x20
    kExtentsFl) 0x1C (bs / 512)) 0x28 kExtMagic) 0x2A 1) 0x2C 4) 0x2E 0) 0x34 0) 0x38 1) 0x3C phys

/-- The block `mkdir` starts a directory with. -/
def freshDirBlock (b : Bytes) (bs ino parentIno : ℕ) : Bytes :=
  putDirent (putDirent (memset b 0 0 bs) 0 ino 12 [dot] 2) 12 parentIno (bs - 12) [dot, dot] 2

/-- A subdirectory more, or less, of a directory. -/
def addLink (dirIno : ℕ) (by_ : ℤ) : Act Unit := do
  loadInode dirIno
  modify fun s => s.setIno (w16 s.ino 0x1A ((r16 s.ino 0x1A + by_) % 2 ^ 16).toNat)
  storeInode dirIno

/-- `getstat` says that it is a directory. -/
def statDir (ino : ℕ) : Act Unit := do
  let st ← getstat ino
  guard (st.mode &&& 0xF000 = 0x4000)

/-- `mkdir`, when it has found that there is nothing of that name. -/
def createDir (parentIno : ℕ) (name : Str) : Act Unit := do
  let ino ← allocInode
  let phys ← allocBlocks 1
  modify fun s => s.setIno (freshDir s.geo.bs phys)
  storeInode ino
  setWriteB2 (fun s => freshDirBlock s.b2 s.geo.bs ino parentIno) phys
  addLink parentIno 1
  dirAddEntry parentIno name ino 2
  commitCounts 1 1 1

/-- `mkdir`. -/
def mkdir (base : Option Str) (path : Str) : Act Unit := do
  let (abs, name, parentIno) ← locate base path
  statDir parentIno
  match ← Fallible.attempt (lookupAbs abs) with
  | some _ => failure
  | none => createDir parentIno name

/-! ## Removing -/

/-- The loop of `rm` over the records of a block: `none` if one is malformed, and otherwise where
the record in front of the one for `ino` is, and how long that one is, if it is there. -/
def unlinkScan (blk : Bytes) (bs ino : ℕ) : ℕ → ℕ → ℕ → Option (Option (ℕ × ℕ))
  | 0, _, _ => some none
  | fuel + 1, off, prev =>
    let rc := r16 blk (off + 4)
    if bs < off + 8 then some none
    else if rc < 8 ∨ bs < off + rc then none
    else if r32 blk off = ino then some (some (prev, rc))
    else unlinkScan blk bs ino fuel (off + rc) off

/-- The loop of `rm` over the blocks of the parent. -/
def unlinkBlocks (parentIno ino : ℕ) : List ℕ → Act Bool
  | [] => return false
  | b :: bs => do
    let phys ← readDirBlock parentIno b
    let s ← get
    match ← Fallible.ofOption (unlinkScan s.b2 s.geo.bs ino s.geo.bs 0 0) with
    | some (prev, rc) =>
      setWriteB2 (fun s => w16 s.b2 (prev + 4) (r16 s.b2 (prev + 4) + rc)) phys
      return true
    | none => unlinkBlocks parentIno ino bs

/-- The entry goes from the parent. -/
def unlink (parentIno ino : ℕ) : Act Unit := do
  loadInode parentIno
  let s ← get
  guard (IsDir s.ino)
  let done ← unlinkBlocks parentIno ino (List.range (s.geo.blocksOf (inodeSize s.ino)))
  guard done

/-- The bit of the inode is cleared, and the inode filled with zeroes. -/
def eraseInode (ino : ℕ) : Act Unit := do
  let s ← get
  readB1 s.geo.ibb
  modify fun s => s.setB1 (s.b1.clearBit (ino - 1))
  writeB1 s.geo.ibb
  readB1 (s.geo.slotBlock ino)
  modify fun s => s.setB1 (memset s.b1 (s.geo.slotOff ino) 0 s.geo.inodeSize)
  writeB1 (s.geo.slotBlock ino)

/-- A removed directory is one subdirectory less for its parent. -/
def leaveParent (parentIno : ℕ) (isDir : Bool) : Act Unit :=
  if isDir then addLink parentIno (-1) else return

/-- The end of `rm`, when the entry is gone. -/
def removeInode (parentIno ino : ℕ) (isDir : Bool) : Act Unit := do
  loadInode ino
  let s ← get
  let old ← Fallible.ofOption (inlineExtents s.ino)
  let freed ← freeExtents old
  leaveParent parentIno isDir
  eraseInode ino
  commitCounts (-freed) (-1) (if isDir then -1 else 0)

/-- A directory with more than `.` and `..` is not removed. One that cannot be listed counts as
empty. -/
def checkEmpty (ino : ℕ) (isDir : Bool) : Act Unit := do
  if isDir then
    match ← Fallible.attempt (listDir (fun _ ctx => (true, ctx)) ino ()) with
    | some (count, _) => guard (count ≤ 2)
    | none => return
  else return

/-- `rm`. -/
def rm (base : Option Str) (path : Str) : Act Unit := do
  let (abs, _, parentIno) ← locate base path
  let ino ← lookupAbs abs
  statDir parentIno
  loadInode ino
  let s ← get
  let isDir := decide (IsDir s.ino)
  guard (isDir ∨ IsFile s.ino)
  checkEmpty ino isDir
  unlink parentIno ino
  removeInode parentIno ino isDir

end Fs

end Aurisys
