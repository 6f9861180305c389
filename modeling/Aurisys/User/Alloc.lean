import Aurisys.Heap.Chain
import Aurisys.Kernel.Exec

/-!
# The allocator of a process

A model of `apps/alloc.cpp`, which every program is linked with, and of `task_sbrk`, the call it
gets its memory from. The memory is that of the process, and every pointer is a 32-bit word: what is
added to a pointer wraps.

The allocator has a piece of memory it never handed out, the tail from `g_next` to `g_end`, and a
list of the blocks it got back, linked through their headers from `g_free`. A header is a size and a
pointer.

## Walks

`malloc` and `free` follow the pointers of the list until they meet the null pointer. As in the
kernel heap a walk takes `2 ^ 32` steps of fuel, and `none` is the call that does not return.

## Main definitions

* `Kernel.taskSbrk` — the break
* `UserHeap`, with `releaseTail`, `carve`, `malloc`, `free`, `calloc`, `realloc`
-/

namespace Aurisys

open Bytes Kernel

namespace Kernel

/-- `to_va`. -/
def toVa (t : Task) (kaddr : ℕ) : ℕ := (kArenaVA + (kaddr + 2 ^ 32 - t.heapBase)) % 2 ^ 32

def setBrk (t : Task) (brk : ℕ) : Task := { t with brk := brk }

/-- `task_sbrk`. -/
def taskSbrk (t : Task) (delta : ℤ) : ℕ × Task :=
  if t.brk = 0 then (0, t)
  else
    let next := t.brk + delta
    if next < t.heapBase ∨ t.heapEnd < next then (0, t)
    else
      let t := setBrk t next.toNat
      (toVa t t.brk, t)

end Kernel

/-- The globals of the allocator, with the memory of the process and the task that has its break. -/
structure UserHeap where
  mem : Bytes
  /-- The next byte that was never handed out. -/
  gNext : ℕ
  /-- One past the last byte the allocator has. -/
  gEnd : ℕ
  /-- The blocks that came back. -/
  gFree : ℕ
  task : Task

namespace UserHeap

def kMinBlock : ℕ := 16

/-- `sizeof(Block)`. -/
def headerBytes : ℕ := 8

/-- `align_up`, the expression the kernel heap has too. -/
def alignUp (v a : ℕ) : ℕ := Heap.alignUp v a

def payloadOf (b : ℕ) : ℕ := (b + headerBytes) % 2 ^ 32
def blockOf (p : ℕ) : ℕ := (p + 2 ^ 32 - headerBytes) % 2 ^ 32

def size (h : UserHeap) (b : ℕ) : ℕ := r32 h.mem b
def next (h : UserHeap) (b : ℕ) : ℕ := r32 h.mem (b + 4)

def setMem (h : UserHeap) (mem : Bytes) : UserHeap := { h with mem := mem }
def setSize (h : UserHeap) (b v : ℕ) : UserHeap := h.setMem (w32 h.mem b v)
def setNext (h : UserHeap) (b v : ℕ) : UserHeap := h.setMem (w32 h.mem (b + 4) v)
def setTail (h : UserHeap) (gNext gEnd : ℕ) : UserHeap := { h with gNext := gNext, gEnd := gEnd }
def setFree (h : UserHeap) (b : ℕ) : UserHeap := { h with gFree := b }
def setTask (h : UserHeap) (t : Task) : UserHeap := { h with task := t }

/-! ## The tail -/

/-- `g_end - g_next`. -/
def left (h : UserHeap) : ℕ := (h.gEnd + 2 ^ 32 - h.gNext) % 2 ^ 32

/-- `release_tail`: the tail becomes the first block of the list. -/
def releaseTail (h : UserHeap) : UserHeap :=
  if h.left < kMinBlock then h
  else
    let tail := h.gNext
    let h := h.setSize tail h.left
    let h := h.setNext tail h.gFree
    (h.setFree tail).setTail h.gEnd h.gEnd

/-- `gate(SYS_sbrk, delta)`. -/
def sbrk (h : UserHeap) (delta : ℕ) : ℕ × UserHeap :=
  let (r, t) := taskSbrk h.task (toInt delta)
  (r, h.setTask t)

/-- `carve`. -/
def carve (h : UserHeap) (bytes : ℕ) : ℕ × UserHeap :=
  if bytes ≤ h.left then (h.gNext, h.setTail ((h.gNext + bytes) % 2 ^ 32) h.gEnd)
  else
    let (before, h) := h.sbrk 0
    if before = 0 then (0, h)
    else
      let want := (alignUp bytes 4096 + 4096) % 2 ^ 32
      let (got, h) := h.sbrk want
      if got = 0 then (0, h)
      else
        let arrived := (got + 2 ^ 32 - before) % 2 ^ 32
        if bytes ≤ arrived then (before, h.setTail ((before + bytes) % 2 ^ 32) got)
        else (0, (h.setTail got got).releaseTail)

/-! ## Links

`Block** link` is the address of a pointer: of `g_free`, or of the one in a block. -/

/-- `*link`. -/
def deref (h : UserHeap) : Option ℕ → ℕ
  | none => h.gFree
  | some b => h.next b

/-- `*link = v`. -/
def setLink (h : UserHeap) : Option ℕ → ℕ → UserHeap
  | none, v => h.setFree v
  | some b, v => h.setNext b v

/-- The walk of `malloc`: the link to the first block with room, or the one that is null. -/
def findFit (h : UserHeap) (bytes : ℕ) : ℕ → Option ℕ → Option (Option ℕ)
  | 0, _ => none
  | fuel + 1, link =>
    let b := h.deref link
    if b = 0 then some link
    else if h.size b < bytes then findFit h bytes fuel (some b)
    else some link

/-- The block at `link` leaves the list; what is left over stays there. -/
def takeBlock (h : UserHeap) (link : Option ℕ) (bytes : ℕ) : UserHeap :=
  let b := h.deref link
  if (bytes + headerBytes) % 2 ^ 32 ≤ h.size b then
    let tail := (b + bytes) % 2 ^ 32
    let h := h.setSize tail (h.size b - bytes)
    let h := h.setNext tail (h.next b)
    let h := h.setSize b bytes
    h.setLink link tail
  else h.setLink link (h.next b)

/-- The size of the block for a request of `n` bytes. -/
def blockBytes (n : ℕ) : ℕ := alignUp ((n + headerBytes) % 2 ^ 32) 8

/-! ## The operations

Each answers the pointer it returns and the new heap; `0` is the null pointer. -/

def malloc (h : UserHeap) (n : ℕ) : Option (ℕ × UserHeap) := do
  let n := if n = 0 then 1 else n
  let bytes := blockBytes n
  let h := h.releaseTail
  let link ← h.findFit bytes (2 ^ 32) none
  let b := h.deref link
  if b ≠ 0 then pure (payloadOf b, h.takeBlock link bytes)
  else
    let (b, h) := h.carve bytes
    if b = 0 then pure (0, h)
    else pure (payloadOf b, (h.setSize b bytes).setNext b 0)

/-- The walk of `free`: `before`, `prev` and `cur` where the blocks below `b` end. -/
def findPlace (h : UserHeap) (b : ℕ) : ℕ → ℕ → ℕ → ℕ → Option (ℕ × ℕ × ℕ)
  | 0, _, _, _ => none
  | fuel + 1, before, prev, cur =>
    if cur ≠ 0 ∧ cur < b then findPlace h b fuel prev cur (h.next cur)
    else some (before, prev, cur)

/-- Swallow `cur` when `b` ends there. -/
def joinNext (h : UserHeap) (b cur : ℕ) : ℕ × UserHeap :=
  if cur ≠ 0 ∧ (b + h.size b) % 2 ^ 32 = cur then
    let h := h.setSize b (h.size b + h.size cur)
    (h.next cur, h)
  else (cur, h)

/-- Let `prev` swallow `b` when it ends there: the block there is now, and the one before it. -/
def joinPrev (h : UserHeap) (before prev b : ℕ) : ℕ × ℕ × UserHeap :=
  if prev ≠ 0 ∧ (prev + h.size prev) % 2 ^ 32 = b then
    (before, prev, h.setSize prev (h.size prev + h.size b))
  else (prev, b, h)

/-- Link `b` between `prev` and `cur`, with the neighbours it touches. -/
def relink (h : UserHeap) (before prev cur b : ℕ) : UserHeap :=
  let (cur, h) := h.joinNext b cur
  let (prev, b, h) := h.joinPrev before prev b
  let h := h.setNext b cur
  if prev ≠ 0 then h.setNext prev b else h.setFree b

def free (h : UserHeap) (p : ℕ) : Option UserHeap :=
  if p = 0 then some h
  else
    let b := blockOf p
    if h.size b < kMinBlock then some h
    else do
      let (before, prev, cur) ← h.findPlace b (2 ^ 32) 0 0 h.gFree
      pure (h.relink before prev cur b)

def calloc (h : UserHeap) (n size : ℕ) : Option (ℕ × UserHeap) :=
  if n ≠ 0 ∧ size > 0xFFFFFFFF / n then some (0, h)
  else do
    let total := n * size
    let (p, h) ← h.malloc total
    if p = 0 then pure (0, h) else pure (p, h.setMem (memset h.mem p 0 total))

/-- The loop of `realloc`, byte by byte. -/
def copyBytes (m : Bytes) (d s : ℕ) : ℕ → Bytes
  | 0 => m
  | i + 1 =>
    let m := copyBytes m d s i
    Function.update m ((d + i) % 2 ^ 32) (m ((s + i) % 2 ^ 32))

/-- `realloc`, when it has to move the block. -/
def moveBlock (h : UserHeap) (p n : ℕ) : Option (ℕ × UserHeap) := do
  let b := blockOf p
  let (fresh, h) ← h.malloc n
  if fresh = 0 then pure (0, h)
  else
    let live := (h.size b + 2 ^ 32 - headerBytes) % 2 ^ 32
    let copy := if n < live then n else live
    let h ← (h.setMem (copyBytes h.mem fresh p copy)).free p
    pure (fresh, h)

def realloc (h : UserHeap) (p n : ℕ) : Option (ℕ × UserHeap) :=
  if p = 0 then h.malloc n
  else if n = 0 then (h.free p).map fun h => (0, h)
  else
    let b := blockOf p
    let want := blockBytes n
    if (b + h.size b) % 2 ^ 32 = h.gNext then
      let fin := (b + want) % 2 ^ 32
      if fin ≤ h.gEnd then some (p, (h.setSize b want).setTail fin h.gEnd)
      else h.moveBlock p n
    else h.moveBlock p n

end UserHeap

end Aurisys
