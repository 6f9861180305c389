import Aurisys.Lib.Bytes

/-!
# The kernel heap

A model of `kernel/lib/heap.cpp`. The heap is one region of memory cut into blocks, each with a
16-byte header in front of its payload, and the headers form a doubly linked list in address
order, used and free blocks alike. The header words are read from and written to the same byte
memory the payloads live in, so a wrong size or a wrong link damages whatever lies there.

## Walks

`find_fit`, `kframe_alloc_n` and `heap_stats` follow the `next` pointers until they meet the null
pointer. A walk longer than the number of addresses goes round a cycle and never ends, so the walks
here take `2 ^ 32` steps of fuel and answer `none` when these run out: `none` is the call that does
not return.

## Main definitions

* `Heap` — the memory and the globals of the allocator
* `Heap.heapInit`, `kmalloc`, `kcalloc`, `krealloc`, `kfree`, `kframeAllocN`, `kframeFree`
* `Heap.heapStats` — what is in use, and the largest free block
-/

namespace Aurisys

open Bytes

/-- The globals of the allocator, with the memory it manages. -/
structure Heap where
  /-- Physical memory, headers and payloads. -/
  mem : Bytes
  gStart : ℕ
  gEnd : ℕ
  /-- Every block in address order, used and free alike. -/
  gHead : ℕ
  gAllocs : ℕ
  gFrees : ℕ
  gCoalesced : ℕ
  gFrames : ℕ
  /-- Frees that were refused. -/
  gRejected : ℕ

namespace Heap

def kAlign : ℕ := 16
def kMinBlock : ℕ := 32
def kPage : ℕ := 4096

/-- Bit 31, set on every header the allocator owns. -/
def kMagic : ℕ := 0x80000000
/-- Bit 0, set while the block is in use. -/
def kInUse : ℕ := 1
/-- Bits 1 to 30, the size of the block with its header. -/
def kSizeMask : ℕ := 0x7FFFFFFE
def kSizeMax : ℕ := kSizeMask >>> 1
/-- `sizeof(block)`. -/
def headerBytes : ℕ := 16

/-- `(v + a - 1u) & ~(a - 1u)`, on 32 bits. -/
def alignUp (v a : ℕ) : ℕ := (v + a - 1) % 2 ^ 32 &&& (0xFFFFFFFF ^^^ (a - 1))

/-- `v & ~(a - 1u)`, on 32 bits. -/
def alignDown (v a : ℕ) : ℕ := v &&& (0xFFFFFFFF ^^^ (a - 1))

/-! ## Headers -/

/-- The packed size word. -/
def size (h : Heap) (b : ℕ) : ℕ := r32 h.mem b
def next (h : Heap) (b : ℕ) : ℕ := r32 h.mem (b + 8)
def prev (h : Heap) (b : ℕ) : ℕ := r32 h.mem (b + 12)

def setSize (h : Heap) (b v : ℕ) : Heap := { h with mem := w32 h.mem b v }
def setPrevSize (h : Heap) (b v : ℕ) : Heap := { h with mem := w32 h.mem (b + 4) v }
def setNext (h : Heap) (b v : ℕ) : Heap := { h with mem := w32 h.mem (b + 8) v }
def setPrev (h : Heap) (b v : ℕ) : Heap := { h with mem := w32 h.mem (b + 12) v }

def addAlloc (h : Heap) : Heap := { h with gAllocs := h.gAllocs + 1 }
def addFree (h : Heap) : Heap := { h with gFrees := h.gFrees + 1 }
def addCoalesced (h : Heap) : Heap := { h with gCoalesced := h.gCoalesced + 1 }
def addFrames (h : Heap) (pages : ℕ) : Heap := { h with gFrames := h.gFrames + pages }
def addRejected (h : Heap) : Heap := { h with gRejected := h.gRejected + 1 }
def setMem (h : Heap) (mem : Bytes) : Heap := { h with mem := mem }
def setHead (h : Heap) (b : ℕ) : Heap := { h with gHead := b }

def bsize (h : Heap) (b : ℕ) : ℕ := h.size b &&& kSizeMask
def inUse (h : Heap) (b : ℕ) : Bool := h.size b &&& kInUse != 0
def ours (h : Heap) (b : ℕ) : Bool := h.size b &&& kMagic != 0

def mark (h : Heap) (b : ℕ) (used : Bool) : Heap :=
  h.setSize b (h.bsize b ||| kMagic ||| if used then kInUse else 0)

/-- `if (b) b->prev = v`. -/
def setPrevIf (h : Heap) (b v : ℕ) : Heap := if b = 0 then h else h.setPrev b v

/-- The header writes that put a free block of `total - bytes` bytes at `tail`, behind `b`. -/
def putTail (h : Heap) (b tail after total bytes : ℕ) : Heap :=
  ((h.setSize tail ((total - bytes) ||| kMagic)).setPrevSize tail bytes).mark tail false
    |>.setSize b (bytes ||| kMagic) |>.setNext b tail |>.setPrev tail b |>.setNext tail after
    |>.setPrevIf after tail

/-- Carve `b` down to `bytes`, when what is left over can be a block. -/
def split (h : Heap) (b bytes : ℕ) : Heap :=
  let total := h.bsize b
  if total < bytes ∨ total - bytes < kMinBlock then h
  else h.putTail b (b + bytes) (h.next b) total bytes

/-- The walk of `find_fit` from `b`: the first free block with room, or `0`. -/
def findFitFrom (h : Heap) (bytes : ℕ) : ℕ → ℕ → Option ℕ
  | 0, _ => none
  | fuel + 1, b =>
    if b = 0 then some 0
    else if !h.inUse b && decide (bytes ≤ h.bsize b) then some b
    else findFitFrom h bytes fuel (h.next b)

def findFit (h : Heap) (bytes : ℕ) : Option ℕ := h.findFitFrom bytes (2 ^ 32) h.gHead

/-! ## Setting up -/

/-- An e820 record of the boot information. -/
structure E820Entry where
  base : ℕ
  len : ℕ
  type : ℕ

/-- The end of the region to manage: the largest end among the usable entries that hold the first
megabyte, computed on 32 bits. -/
def regionEnd : List E820Entry → ℕ → ℕ
  | [], gEnd => gEnd
  | e :: es, gEnd =>
    if e.type ≠ 1 then regionEnd es gEnd
    else
      let base := e.base % 2 ^ 32
      let fin := (base + e.len % 2 ^ 32) % 2 ^ 32
      if base ≤ 0x100000 ∧ 0x100000 < fin ∧ gEnd < fin then regionEnd es (alignDown fin kAlign)
      else regionEnd es gEnd

/-- One free block over the whole region. -/
def format (mem : Bytes) (gStart gEnd : ℕ) : Heap :=
  let h : Heap := ⟨mem, gStart, gEnd, 0, 0, 0, 0, 0, 0⟩
  let h := ((h.setPrevSize gStart 0).setNext gStart 0).setPrev gStart 0
  ((h.mark gStart false).setSize gStart ((gEnd - gStart) ||| kMagic)).setHead gStart

def heapInit (mem : Bytes) (kernelEnd : ℕ) (bi : List E820Entry) : Heap :=
  let gStart := alignUp kernelEnd kAlign
  let gEnd := regionEnd (bi.take 32) 0
  if gEnd ≤ gStart + kMinBlock then format mem gStart (gStart + 0x10000)
  else format mem gStart gEnd

/-! ## The operations

Each answers the pointer it returns and the new heap; `0` is the null pointer. -/

def kmalloc (h : Heap) (size : ℕ) : Option (ℕ × Heap) :=
  let size := if size = 0 then 1 else size
  if size > kSizeMax - headerBytes then some (0, h)
  else do
    let bytes := alignUp (size + headerBytes) kAlign
    let b ← h.findFit bytes
    if b = 0 then pure (0, h)
    else
      pure (b + headerBytes, ((h.split b bytes).mark b true).addAlloc)

def kcalloc (h : Heap) (n size : ℕ) : Option (ℕ × Heap) :=
  if n ≠ 0 ∧ size > 0xFFFFFFFF / n then some (0, h)
  else do
    let total := n * size
    let (p, h) ← h.kmalloc total
    if p = 0 then pure (0, h) else pure (p, h.setMem (memset h.mem p 0 total))

/-- The header writes by which `l` swallows its right neighbour `r`. -/
def absorb (h : Heap) (l r : ℕ) : Heap :=
  let h := h.setSize l ((h.bsize l + h.bsize r) ||| kMagic)
  let h := h.setNext l (h.next r)
  (h.setPrevIf (h.next r) l).addCoalesced

/-- Swallow the right neighbour of `b`, when there is one and it is free. -/
def joinNext (h : Heap) (b : ℕ) : Heap :=
  let n := h.next b
  if n = 0 ∨ h.inUse n then h else h.absorb b n

/-- Let the left neighbour of `b` swallow it, when there is one and it is free. -/
def joinPrev (h : Heap) (b : ℕ) : Heap :=
  let p := h.prev b
  if p = 0 ∨ h.inUse p then h else h.absorb p b

def kfree (h : Heap) (ptr : ℕ) : Heap :=
  if ptr = 0 then h
  else
    let b := ptr - headerBytes
    if !h.ours b || !h.inUse b then h.addRejected
    else (((h.mark b false).addFree).joinNext b).joinPrev b

def krealloc (h : Heap) (ptr size : ℕ) : Option (ℕ × Heap) :=
  if ptr = 0 then h.kmalloc size
  else if size = 0 then some (0, h.kfree ptr)
  else if size > kSizeMax - headerBytes then some (0, h)
  else
    let b := ptr - headerBytes
    if !h.ours b || !h.inUse b then some (0, h)
    else
      let want := alignUp (size + headerBytes) kAlign
      if h.next b = 0 ∧ want ≤ h.gEnd - alignDown b kAlign then
        let grown := if want > h.bsize b then want else h.bsize b
        let h := h.setSize b (grown ||| kMagic ||| kInUse)
        some (ptr, (h.split b grown).mark b true)
      else do
        let (fresh, h) ← h.kmalloc size
        if fresh = 0 then pure (0, h)
        else
          let live := h.bsize b - headerBytes
          let copy := if size < live then size else live
          pure (fresh, (h.setMem (memcpy h.mem fresh h.mem ptr copy)).kfree ptr)

/-- What the page walk does at the free block `b`: the heap and the block to hand out, once `b`
is cut so that its payload starts on a page; `none` when `b` will not do. -/
def pageCut (h : Heap) (want b : ℕ) : Option (ℕ × Heap) :=
  let payload := b + headerBytes
  if payload &&& (kPage - 1) ≠ 0 then
    let room := h.bsize b
    -- on 32 bits, so a payload on the last page wraps and leaves no room
    let cut := (alignUp payload kPage + 2 * 2 ^ 32 - kAlign - b) % 2 ^ 32
    if room < cut ∨ room - cut < want then none
    else if cut < kMinBlock then none
    else some (b + cut, h.putTail b (b + cut) (h.next b) room cut)
  else some (b, h)

/-- The walk of `kframe_alloc_n` from `b`. -/
def frameWalk (h : Heap) (pages want : ℕ) : ℕ → ℕ → Option (ℕ × Heap)
  | 0, _ => none
  | fuel + 1, b =>
    if b = 0 then some (0, h)
    else if h.inUse b then frameWalk h pages want fuel (h.next b)
    else
      match h.pageCut want b with
      | none => frameWalk h pages want fuel (h.next b)
      | some (b, h) =>
        if h.bsize b < want then frameWalk h pages want fuel (h.next b)
        else some (b + headerBytes, (((h.split b want).mark b true).addAlloc).addFrames pages)

def kframeAllocN (h : Heap) (pages : ℕ) : Option (ℕ × Heap) :=
  if pages = 0 then some (0, h)
  else h.frameWalk pages ((pages * kPage + headerBytes) % 2 ^ 32) (2 ^ 32) h.gHead

def kframeAlloc (h : Heap) : Option (ℕ × Heap) := h.kframeAllocN 1

def kframeFree (h : Heap) (frame : ℕ) : Heap := h.kfree frame

/-! ## Statistics -/

/-- The walk of `heap_largest_free` from `b`. -/
def largestFreeFrom (h : Heap) : ℕ → ℕ → ℕ → Option ℕ
  | 0, _, _ => none
  | fuel + 1, b, best =>
    if b = 0 then some best
    else if h.inUse b then largestFreeFrom h fuel (h.next b) best
    else
      let room := h.bsize b
      if room ≤ headerBytes then largestFreeFrom h fuel (h.next b) best
      else
        let usable := room - headerBytes
        largestFreeFrom h fuel (h.next b) (if usable > best then usable else best)

def heapLargestFree (h : Heap) : Option ℕ := h.largestFreeFrom (2 ^ 32) h.gHead 0

/-- The walk of `heap_stats` from `b`; the sum is kept on 32 bits. -/
def liveFrom (h : Heap) : ℕ → ℕ → ℕ → Option ℕ
  | 0, _, _ => none
  | fuel + 1, b, live =>
    if b = 0 then some live
    else if !h.inUse b then liveFrom h fuel (h.next b) live
    else
      let room := h.bsize b
      liveFrom h fuel (h.next b)
        (if room > headerBytes then (live + (room - headerBytes)) % 2 ^ 32 else live)

/-- What `heap_stats` reports. -/
structure Stats where
  total : ℕ
  used : ℕ
  largestFree : ℕ

def heapStats (h : Heap) : Option Stats := do
  let live ← h.liveFrom (2 ^ 32) h.gHead 0
  let largest ← h.heapLargestFree
  pure ⟨h.gEnd - h.gStart, live, largest⟩

end Heap

end Aurisys
