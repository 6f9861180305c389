import Mathlib.Algebra.GroupWithZero.Nat
import Mathlib.Data.Fintype.Basic
import Mathlib.Logic.Function.Basic

/-!
# The process table entry

The record `task::task` of `include/task.h`, the register frame of `include/arch/isr.h` and the
open files of `include/vfs.h`, field by field. A null pointer is `0`, the flag bytes are `Bool`,
the words the signal code masks and compares are `UInt32`.

Left out are `kslot`, the kernel's own resume point, which only the switch code in assembly reads,
`utime` and `ktime`, which are statistics, and of a `vfs::node` the tree links `parent` and
`mount`, which an open file does not use.

## Main definitions

* `Registers` — the frame a trap leaves on the kernel stack
* `OFile` — an open file
* `Task`, `TaskState` — the table entry and its state
-/

namespace Aurisys

/-- `Registers`: what `pushad`, the stub and the processor push, lowest address first. -/
structure Registers where
  edi : UInt32
  esi : UInt32
  ebp : UInt32
  espDummy : UInt32
  ebx : UInt32
  edx : UInt32
  ecx : UInt32
  eax : UInt32
  intNo : UInt32
  errCode : UInt32
  eip : UInt32
  cs : UInt32
  eflags : UInt32
  userEsp : UInt32
  userSs : UInt32
deriving DecidableEq

/-- The frame of all zeroes, `Registers r = {}`. -/
def Registers.zero : Registers := ⟨0, 0, 0, 0, 0, 0, 0, 0, 0, 0, 0, 0, 0, 0, 0⟩

/-- The trap came from ring 3. -/
def Registers.fromUser (r : Registers) : Bool := r.cs &&& 3 == 3

/-! ## Open files -/

/-- `kTypeFile` to `kTypeMem`. The type `0` of a closed descriptor is the `none` of the table. -/
inductive NodeType where
  | file
  | dir
  | char
  | fifo
  | mem
deriving DecidableEq

/-- Whose `read` and `write` the node carries. -/
inductive Backend where
  | ext
  | dev
  | pipe
  | mem
deriving DecidableEq

/-- `vfs::node`, as far as an open file uses it. -/
structure Node where
  name : List UInt8
  inode : ℕ
  type : NodeType
  size : ℕ
  /-- The device, the pipe or the memory window. -/
  internal : ℕ
  backend : Backend
deriving DecidableEq

/-- `vfs::ofile`. -/
structure OFile where
  n : Node
  pos : ℕ
  flags : UInt32
deriving DecidableEq

def kMaxFd : ℕ := 16

instance : NeZero kMaxFd := ⟨by decide⟩

/-- The bit of an `ofile` that says which end of a pipe it is. -/
def kPipeWriteEnd : UInt32 := 0x10000

/-! ## The table entry -/

/-- `kFree` to `kBlocked`. -/
inductive TaskState where
  | free
  | ready
  | running
  | zombie
  | killed
  | blocked
deriving DecidableEq

def kMaxTask : ℕ := 8

instance : NeZero kMaxTask := ⟨by decide⟩

/-- `pipebuf`, without the bytes in it. -/
structure Pipe where
  readers : ℕ
  writers : ℕ
  /-- A reader parked because there is nothing to read. -/
  rdWait : Option (Fin kMaxTask)
  /-- A writer parked because there is no room to write. -/
  wrWait : Option (Fin kMaxTask)
  opened : Bool
deriving DecidableEq

def kQuantum : ℕ := 2

def kSigMax : ℕ := 32

def kSigKill : UInt32 := 9

def kSigSegv : UInt32 := 11

def kSigNone : UInt32 := 0

def kArenaBytes : ℕ := 1024 * 1024

def kArenaVA : ℕ := 0x40200000

def kCodeBytes : ℕ := 0x40000

def kAppBase : ℕ := 0x40000000

def kStackBase : ℕ := 0x40100000

def kStackBytes : ℕ := 0x10000

def kKernelStackBytes : ℕ := 16384

def kKernelSlack : ℕ := 4096

def kKernelAlloc : ℕ := kKernelStackBytes + kKernelSlack

/-- What a parent is told about a child that ended. -/
structure Note where
  pid : ℕ
  code : UInt32
deriving DecidableEq

/-- `task::task`. -/
structure Task where
  pid : ℕ
  ppid : ℕ
  state : TaskState
  exitCode : UInt32
  /-- What killed it, `kSigNone` if it just exited. -/
  signal : UInt32
  /-- Its `paging::space`. -/
  sp : ℕ
  /-- The top of its kernel stack. -/
  kstack : ℕ
  regs : Registers
  fd : Fin kMaxFd → Option OFile
  nfd : ℕ
  name : List UInt8
  heapBase : ℕ
  heapEnd : ℕ
  brk : ℕ
  codeBase : ℕ
  codeBytes : ℕ
  stackBase : ℕ
  cwd : List UInt8
  quantum : ℕ
  /-- `done_pid` and `done_code` up to `done_n`: the children that ended and were not collected. -/
  done : List Note
  waiting : Bool
  waitPid : ℤ
  wakePending : Bool
  sigHandlers : Fin kSigMax → UInt32
  sigMasks : Fin kSigMax → UInt32
  sigMask : UInt32
  sigPending : UInt32
  sigActive : UInt32
  sigSavedMask : UInt32
  sleepUntil : ℕ
  inSyscall : Bool
  ownsFrames : Bool
  armed : Bool

/-- A slot after `memset(t, 0, sizeof *t)`. -/
def Task.zero : Task where
  pid := 0
  ppid := 0
  state := .free
  exitCode := 0
  signal := 0
  sp := 0
  kstack := 0
  regs := .zero
  fd := fun _ => none
  nfd := 0
  name := []
  heapBase := 0
  heapEnd := 0
  brk := 0
  codeBase := 0
  codeBytes := 0
  stackBase := 0
  cwd := []
  quantum := 0
  done := []
  waiting := false
  waitPid := 0
  wakePending := false
  sigHandlers := fun _ => 0
  sigMasks := fun _ => 0
  sigMask := 0
  sigPending := 0
  sigActive := 0
  sigSavedMask := 0
  sleepUntil := 0
  inSyscall := false
  ownsFrames := false
  armed := false

end Aurisys
