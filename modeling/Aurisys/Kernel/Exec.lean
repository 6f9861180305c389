import Aurisys.Kernel.Process
import Mathlib.Algebra.Order.Group.Nat

/-!
# Loading a program

`exec::replace` gives the process that runs a new image: a fresh address space and fresh frames, a
program read from a file into them, and a stack with its arguments. `load_into` does the reading,
and says on descriptor `1` of the process why it gives up.

## Scope

The file system is a parameter, `Files`: what a path resolves to and what a node answers to a read
or a write. No other process runs meanwhile, so a path to a terminal or a message to a full pipe,
which would wait, is left out, and so is the reader a message to a pipe wakes.

## Main definitions

* `Files` — the file system
* `ExecArgs` — what the call was given
* `loadInto`, `replace`
-/

namespace Aurisys

open Paging Bytes

/-- What the file system answers. -/
structure Files where
  /-- `vfs::resolve`, from the directory of the process. -/
  resolve : List UInt8 → Option Node
  /-- `n->read` at an offset, for a length: the result and the bytes. -/
  read : Node → ℕ → ℕ → ℤ × List UInt8
  /-- `n->write` at an offset: the result, and the size the node has then. -/
  write : Node → ℕ → List UInt8 → ℤ × ℕ
  /-- The size `fs::getstat` reports. -/
  size : ℕ → Option ℕ
  /-- A path never leads to the end of a pipe. -/
  resolve_pipe : ∀ p n, resolve p = some n → n.type = .fifo → n.internal = 0

/-- The arguments of `replace`. The path is a pointer into the user half, so it points at one string
as long as the space of the caller is the active one, and at another once the fresh space is. -/
structure ExecArgs (H : Type) where
  path : List UInt8
  /-- The string at the pointer in the fresh space. -/
  late : Mmu H → List UInt8
  argv : List (List UInt8)
  envp : List (List UInt8)

/-- The bytes of a string. -/
def text (s : String) : List UInt8 := s.toList.map fun c => UInt8.ofNat c.toNat

def O_APPEND : UInt32 := 0x400

namespace Kernel

variable {H : Type}

/-! ## Descriptors -/

/-- Change one descriptor of the process that runs. -/
def setFd (k : Kernel H) (fd : Fin kMaxFd) (e : Option OFile) : Kernel H :=
  k.setTask k.current { k.tasks k.current with
    fd := Function.update (k.tasks k.current).fd fd e }

/-- The descriptors of the process that runs. -/
def fds (k : Kernel H) : Fin kMaxFd → Option OFile := (k.tasks k.current).fd

/-- `fd_open` without flags: the lowest descriptor that is free. -/
def fdOpen (fs : Files) (k : Kernel H) (path : List UInt8) : Option (Fin kMaxFd) × Kernel H :=
  match fs.resolve path with
  | none => (none, k)
  | some r =>
    match (List.finRange kMaxFd).find? fun i => (k.fds i).isNone with
    | none => (none, k)
    | some fd => (some fd, k.setFd fd (some ⟨r, 0, 0⟩))

/-- `fd_close`. -/
def fdClose (k : Kernel H) (fd : Fin kMaxFd) : Kernel H := k.closeIn k.current fd

/-- The position after a call that moved `r` bytes. -/
def advance (pos : ℕ) (r : ℤ) : ℕ := if 0 < r then (pos + r.toNat) % 2 ^ 32 else pos

/-- `fd_read`. -/
def fdRead (fs : Files) (k : Kernel H) (fd : Fin kMaxFd) (len : ℕ) :
    ℤ × List UInt8 × Kernel H :=
  match k.fds fd with
  | none => (-1, [], k)
  | some e =>
    let (r, data) := fs.read e.n e.pos len
    (r, data, k.setFd fd (some { e with pos := advance e.pos r }))

end Kernel

/-- An open file after `fd_write`. -/
def OFile.write (fs : Files) (e : OFile) (bytes : List UInt8) : OFile :=
  let pos :=
    if e.flags &&& O_APPEND ≠ 0 ∧ e.n.inode ≠ 0 then (fs.size e.n.inode).getD e.pos else e.pos
  let (r, size) := fs.write e.n pos bytes
  { e with n := { e.n with size := size }, pos := Kernel.advance pos r }

/-- `put` of `terminal.cpp` in front of a descriptor: the bytes not yet written, and the file. -/
def OFile.put (fs : Files) (b : List UInt8 × OFile) (c : UInt8) : List UInt8 × OFile :=
  let b := if 1024 ≤ b.1.length then ([], b.2.write fs b.1) else b
  let b := (b.1 ++ [c], b.2)
  if c = 0x0A then ([], b.2.write fs b.1) else b

/-- An open file after `terminal::printf` on it. -/
def OFile.printf (fs : Files) (e : OFile) (s : List UInt8) : OFile :=
  let b := s.foldl (OFile.put fs) ([], e)
  if b.1 = [] then b.2 else b.2.write fs b.1

namespace Kernel

variable {H : Type}

/-- `terminal::printf`, on descriptor `1`. -/
def printf (fs : Files) (k : Kernel H) (s : List UInt8) : Kernel H :=
  match k.fds 1 with
  | none => k
  | some e => k.setFd 1 (some (e.printf fs s))

/-- A word read as an `int`. -/
def toInt (n : ℕ) : ℤ := if n < 2 ^ 31 then n else n - 2 ^ 32

/-- `lseek` from the start of a file that is open. -/
def lseek (k : Kernel H) (fd : Fin kMaxFd) (off : ℕ) : Kernel H :=
  match k.fds fd with
  | none => k
  | some e => if toInt off < 0 then k else k.setFd fd (some { e with pos := off })

/-! ## The file -/

def kPtLoad : ℕ := 1

/-- `sizeof(elfhdr)`. -/
def elfhdrBytes : ℕ := 52

/-- `sizeof(phdr)`. -/
def phdrBytes : ℕ := 32

/-- A record that was read into memory. -/
def record (data : List UInt8) : Bytes := fun i => data.getD i 0

/-- `elf_ok`. -/
def elfOk (eh : Bytes) : Bool :=
  eh 0 == 0x7F && eh 1 == 0x45 && eh 2 == 0x4C && eh 3 == 0x46 && eh 4 == 1 && eh 5 == 1 &&
    r16 eh 16 == 2 && r16 eh 18 == 3

def entry (eh : Bytes) : ℕ := r32 eh 24

def phoff (eh : Bytes) : ℕ := r32 eh 28

def phentsize (eh : Bytes) : ℕ := r16 eh 42

def phnum (eh : Bytes) : ℕ := r16 eh 44

/-! ## Memory of the active space -/

end Kernel

namespace Paging.Mmu

variable {H : Type}

/-- The kernel stores through the active space, where the write bit does not bind it. `none` is a
fault in the kernel, which is a panic. -/
def poke (m : Mmu H) (va : ℕ) : List UInt8 → Option (Mmu H)
  | [] => some m
  | v :: vs =>
    match m.walk m.current va with
    | some e =>
      if e.present then (m.setMem (Function.update m.mem (e.frame + va % 4096) v)).poke (va + 1) vs
      else none
    | none => none

end Paging.Mmu

namespace Kernel

variable {H : Type}

/-! ## The arguments -/

def kCopyStr : ℕ := 192

/-- `g_flat`: the arguments and the environment, as strings. -/
structure Flat where
  args : List (List UInt8)
  env : List (List UInt8)

/-- `copy_args`; a string that would be truncated is refused. -/
def copyArgs (argv envp : List (List UInt8)) : Option Flat :=
  if (∀ s ∈ argv, s.length < kCopyStr) ∧ ∀ s ∈ envp, s.length < kCopyStr then some ⟨argv, envp⟩
  else none

/-- The loops of `build_stack`: one string after the other below `s`. The inner `none` is a stack
that is too small; else it is the new `s` and the pointers. -/
def pushStrings (m : Mmu H) (s : ℕ) : List (List UInt8) → Option (Option (ℕ × List ℕ) × Mmu H)
  | [] => some (some (s, []), m)
  | p :: ps =>
    if s - kStackBase < p.length + 1 then some (none, m)
    else
      match m.poke (s - (p.length + 1)) (p ++ [0]) with
      | none => none
      | some m =>
        match pushStrings m (s - (p.length + 1)) ps with
        | none => none
        | some (none, m) => some (none, m)
        | some (some (s', ptrs), m) => some (some (s', (s - (p.length + 1)) :: ptrs), m)

/-- A word in memory. -/
def word (v : ℕ) : List UInt8 :=
  [UInt8.ofNat v, UInt8.ofNat (v / 2 ^ 8), UInt8.ofNat (v / 2 ^ 16), UInt8.ofNat (v / 2 ^ 24)]

/-- `build_stack`: the stack pointer, or `0` when the arguments do not fit. -/
def buildStack (m : Mmu H) (flat : Flat) : Option (ℕ × Mmu H) :=
  match pushStrings m (kStackBase + kStackBytes) flat.args with
  | none => none
  | some (none, m) => some (0, m)
  | some (some (s, ptrs), m) =>
    match pushStrings m s flat.env with
    | none => none
    | some (none, m) => some (0, m)
    | some (some (s, eptrs), m) =>
      let words := flat.args.length :: ptrs ++ 0 :: eptrs ++ [0]
      if s - kStackBase < 4 * words.length + 16 then some (0, m)
      else (m.poke (s - 4 * words.length) (words.flatMap word)).map
        fun m => (s - 4 * words.length, m)

/-! ## The image -/

/-- `map_image`. -/
def mapImage (m : Mmu H) (t : Task) : Bool × Mmu H :=
  let code := m.mapRange t.sp kAppBase t.codeBase (kCodeBytes / 4096)
  if !code.1 then code
  else
    let stack := code.2.mapRange t.sp kStackBase t.stackBase (kStackBytes / 4096)
    if !stack.1 then stack
    else stack.2.mapRange t.sp kArenaVA t.heapBase (kArenaBytes / 4096)

/-- The loop of `load_into` over the program headers at `is`. -/
def loadSegments (fs : Files) (late : Mmu H → List UInt8) (fd : Fin kMaxFd) (ph : Bytes) :
    List ℕ → Kernel H → Option (Bool × Kernel H)
  | [], k => some (true, k)
  | i :: is, k =>
    let type := r32 ph (i * phdrBytes)
    let offset := r32 ph (i * phdrBytes + 4)
    let vaddr := r32 ph (i * phdrBytes + 8)
    let filesz := r32 ph (i * phdrBytes + 16)
    let memsz := r32 ph (i * phdrBytes + 20)
    if type ≠ kPtLoad then loadSegments fs late fd ph is k
    else if vaddr < kAppBase ∨ kAppBase + kCodeBytes < (vaddr + memsz) % 2 ^ 32 then
      some (false, k.printf fs (late k.mmu ++ text ": program too big\n"))
    else
      let (r, data, k) := fdRead fs (k.lseek fd offset) fd filesz
      match k.mmu.poke vaddr data with
      | none => none
      | some m =>
        let k := k.setMmu m
        if r ≠ toInt filesz then
          some (false, k.printf fs (late k.mmu ++ text ": short read\n"))
        else loadSegments fs late fd ph is k

/-- The registers a program starts with. -/
def startRegs (eh : Bytes) (esp : ℕ) : Registers :=
  { Registers.zero with
    eip := UInt32.ofNat (entry eh), cs := 0x1B, eflags := 0x202
    userEsp := UInt32.ofNat esp, userSs := 0x23, espDummy := UInt32.ofNat esp }

/-- The part of `load_into` that runs in the space of the task: the segments and the stack. -/
def loadImage (fs : Files) (late : Mmu H → List UInt8) (fd : Fin kMaxFd) (eh ph : Bytes)
    (flat : Flat) (k : Kernel H) : Option (ℕ × Kernel H) :=
  match k.mmu.poke kAppBase (List.replicate kCodeBytes 0) with
  | none => none
  | some m =>
    match loadSegments fs late fd ph (List.range (phnum eh)) (k.setMmu m) with
    | none => none
    | some (false, k) => some (0, k)
    | some (true, k) =>
      match buildStack k.mmu flat with
      | none => none
      | some (esp, m) =>
        let k := k.setMmu m
        if esp = 0 then some (0, k.printf fs (late k.mmu ++ text ": arg list too big\n"))
        else some (esp, k)

/-- A complaint of `load_into`, after which the file is closed. -/
def give (fs : Files) (a : ExecArgs H) (fd : Fin kMaxFd) (k : Kernel H) (why : String) :
    Option (Option Registers × Kernel H) :=
  some (none, (k.printf fs (a.path ++ text why)).fdClose fd)

/-- `load_into` once the headers are read. -/
def loadProgram (fs : Files) (a : ExecArgs H) (fd : Fin kMaxFd) (eh ph : Bytes) (k : Kernel H) :
    Option (Option Registers × Kernel H) :=
  let t := k.tasks k.current
  let (ok, m) := mapImage k.mmu t
  let k := k.setMmu m
  if !ok then give fs a fd k ": no room to map it\n"
  else
    let here := t.sp
    match copyArgs a.argv a.envp with
    | none => some (none, (k.setMmu (k.mmu.spaceSwitch here)).fdClose fd)
    | some flat =>
      match loadImage fs a.late fd eh ph flat (k.setMmu (k.mmu.spaceSwitch t.sp)) with
      | none => none
      | some (esp, k) =>
        let k := (k.setMmu (k.mmu.spaceSwitch here)).fdClose fd
        if esp = 0 then some (none, k) else some (some (startRegs eh esp), k)

/-- `load_into`, for the process that runs. -/
def loadInto (fs : Files) (k : Kernel H) (a : ExecArgs H) :
    Option (Option Registers × Kernel H) :=
  if 16 < a.argv.length then some (none, k)
  else
    match fdOpen fs k a.path with
    | (none, k) => some (none, k.printf fs (a.path ++ text ": no such file\n"))
    | (some fd, k) =>
      let (r, data, k) := fdRead fs k fd elfhdrBytes
      let eh := record data
      if r ≠ elfhdrBytes ∨ !elfOk eh then give fs a fd k ": not an executable\n"
      else if 8 < phnum eh ∨ phentsize eh < 32 then give fs a fd k ": not an executable\n"
      else
        let want := phnum eh * phdrBytes
        let (r, data, k) := fdRead fs (k.lseek fd (phoff eh)) fd want
        if r ≠ want then give fs a fd k ": not an executable\n"
        else loadProgram fs a fd eh (record data) k

section

variable [PageAlloc H]

/-- The image goes back to what it was, as `replace` writes it out twice. -/
def restoreImage (t old : Task) : Task :=
  { t with
    sp := old.sp, codeBase := old.codeBase, stackBase := old.stackBase, heapBase := old.heapBase
    heapEnd := old.heapEnd, brk := old.brk }

def setSp (t : Task) (sp : ℕ) : Task := { t with sp := sp }

def setOwns (t : Task) : Task := { t with ownsFrames := true }

/-- The task goes on in its new image, where the handlers of the old one mean nothing. -/
def startImage (t : Task) (r : Registers) (name : List UInt8) : Task :=
  { t with
    regs := r, name := name
    sigHandlers := fun _ => 0, sigMask := 0, sigPending := 0, sigActive := 0
    inSyscall := false, state := .running }

/-- `replace` once `load_into` has failed. -/
def undo (k : Kernel H) (old : Task) (fresh : ℕ) : Kernel H :=
  let t := k.tasks k.current
  let m := ((k.mmu.kframeFree t.codeBase).kframeFree t.stackBase).kframeFree t.heapBase
  (k.setMmu (m.spaceDestroy fresh)).setTask k.current (restoreImage t old)

/-- `replace` once `load_into` has succeeded. -/
def commit (k : Kernel H) (a : ExecArgs H) (old : Task) (r : Registers) : Kernel H :=
  let t := k.tasks k.current
  let m := (k.mmu.spaceSwitch t.sp).spaceDestroy old.sp
  let m := if old.ownsFrames then
      ((m.kframeFree old.heapBase).kframeFree old.codeBase).kframeFree old.stackBase
    else m
  (k.setMmu m).setTask k.current (startImage t r ((a.late m).take 15))

/-- `replace`: `false` when it returns false, `true` when it does not return and the process goes on
in its new image. `none` is a panic. -/
def replace (fs : Files) (k : Kernel H) (a : ExecArgs H) : Option (Bool × Kernel H) :=
  let old := k.tasks k.current
  if old.sp = 0 then some (false, k)
  else
    let (fresh, m) := k.mmu.spaceCreate
    if fresh = 0 then some (false, k.setMmu m)
    else
      let (ok, t, m) := giveFrames m (setSp old fresh)
      if !ok then
        some (false, (k.setMmu (m.spaceDestroy fresh)).setTask k.current (restoreImage t old))
      else
        match loadInto fs ((k.setMmu m).setTask k.current (setOwns t)) a with
        | none => none
        | some (none, k) => some (false, k.undo old fresh)
        | some (some r, k) => some (true, k.commit a old r)

end

end Kernel

end Aurisys
