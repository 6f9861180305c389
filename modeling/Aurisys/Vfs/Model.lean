import Aurisys.Fs.Node
import Aurisys.Kernel.Seek
import Mathlib.Data.List.Find

/-!
# Nodes, mounts and descriptors over the volume

The part of `vfs.cpp` that is between the descriptors of the processes and the volume: `resolve`,
which walks a path through the directories of the volume and the trees that are mounted on them, and
the calls that go through a descriptor of a file on the volume.

Each descriptor has a copy of the node that `resolve` made, and the size of the file is in that
copy.

## Scope

A tree that is not on the volume, the one of `/dev` or that of `/proc`, is given by the nodes in it.
What a call does on a descriptor of such a node is left out. The pool of nodes and the pointers
between nodes are left out, as what `resolve` hands out is copied or dropped at once.

## Main definitions

* `VTree`, `VNode` — the nodes
* `Vfs` — the volume, what is mounted, and the descriptors of all processes
* `vfsResolve`, `fdOpen`, `fdWrite`, `lseek`, `fstat`

## Main results

* `fdOpen_refines` — the descriptors are those of the process
-/

namespace Aurisys

open Bytes Fallible Path Fs

/-- A node that is not on the volume, and what its `find_child` leads to. -/
inductive VTree
  | mk (n : Fs.Node) (findChild : Str → Option VTree)

namespace VTree

def node : VTree → Fs.Node
  | mk n _ => n

def findChild : VTree → Str → Option VTree
  | mk _ f => f

end VTree

/-- What `resolve` hands out: a node of the volume, or one of a tree. -/
inductive VNode
  | ext (n : Fs.Node)
  | virt (t : VTree)

def VNode.node : VNode → Fs.Node
  | ext n => n
  | virt t => t.node

/-- The node with the size 0. -/
def VNode.emptied : VNode → VNode
  | ext n => .ext { n with size := 0 }
  | virt t => .virt (.mk { t.node with size := 0 } t.findChild)

/-- `g_mounts`: the inode of a directory and the tree that hangs on it. -/
abbrev Mounts := List (ℕ × VTree)

/-- The tree that a node gets on the way. The last one that fits is the one it has in the end. -/
def mountOf (ms : Mounts) (n : Fs.Node) : Option VTree :=
  (ms.reverse.find? fun m => n.inode ≠ 0 ∧ m.1 = n.inode).map Prod.snd

def kTypeFile : ℕ := 1

def kTypeDir : ℕ := 2

/-! ## Resolving -/

/-- `ext_find_child`, with the node it makes. -/
def extFindNode (dirIno : ℕ) (name : Str) : Act (Option VNode) := do
  let r ← attempt (listDir (findName name) dirIno none)
  match r.bind Prod.snd with
  | some d => do
    let size ← statSize d.ino
    return some (.ext ⟨name.take 63, d.ino, d.type, size⟩)
  | none => return none

/-- `find_child` of a node, or of the tree that hangs on it. -/
def findIn (cur : VNode) (mount : Option VTree) (name : Str) : Act (Option VNode) :=
  match mount, cur with
  | some t, _ => return (t.findChild name).map .virt
  | none, .virt t => return (t.findChild name).map .virt
  | none, .ext n => extFindNode n.inode name

/-- The loop of `resolve`. -/
def resolveFrom (ms : Mounts) : List Str → VNode → Option VTree → Act (Option VNode)
  | [], cur, _ => return some cur
  | name :: names, cur, mount => do
    match ← findIn cur mount name with
    | some child => resolveFrom ms names child (mountOf ms child.node)
    | none => return none

/-- `resolve`. Nothing hangs on the root itself. -/
def vfsResolve (ms : Mounts) (root : Fs.Node) (cwd path : Str) : Act (Option VNode) :=
  match resolve path (some cwd) 256 with
  | some abs => resolveFrom ms (components abs) (.ext root) none
  | none => return none

/-! ## Descriptors -/

/-- `vfs::ofile`. The type of the node is 0 where the descriptor is free. -/
structure Slot where
  n : VNode
  pos : UInt32
  flags : ℕ

/-- After `memset`. -/
def Slot.zero : Slot := ⟨.ext ⟨[], 0, 0, 0⟩, 0, 0⟩

/-- The volume, what is mounted on it, and the working directory and the descriptors of each
process. -/
structure Vfs where
  vol : Fs
  mounts : Mounts
  /-- The size `g_root` got when it was made. -/
  rootSize : ℕ
  cwd : ℕ → Str
  fd : ℕ → Fin kMaxFd → Slot

namespace Vfs

/-- `g_root`. -/
def root (w : Vfs) : Fs.Node := ⟨[slash], kRootIno, kTypeDir, w.rootSize⟩

def setVol (w : Vfs) (vol : Fs) : Vfs := { w with vol := vol }

/-- Change a descriptor of a process. -/
def setFd (w : Vfs) (p : ℕ) (fd : Fin kMaxFd) (e : Slot) : Vfs :=
  { w with fd := Function.update w.fd p (Function.update (w.fd p) fd e) }

/-- The part of `fd_open` in which a file may be created. -/
def createMissing (w : Vfs) (cwd path : Str) (flags : ℕ) : Act Unit := do
  if flags &&& oCreat ≠ 0 ∧ (resolve path (some cwd) 256).isSome then
    match ← vfsResolve w.mounts w.root cwd path with
    | some _ => return
    | none => writeFile (some cwd) path (fun _ => 0) 0 oTrunc
  else return

/-- The part in which it may be truncated. -/
def truncateFound (cwd path : Str) (r : VNode) (flags : ℕ) : Act VNode := do
  if r.node.inode ≠ 0 ∧ r.node.type = kTypeFile ∧ flags &&& oTrunc ≠ 0 then
    writeFile (some cwd) path (fun _ => 0) 0 oTrunc
    return r.emptied
  else return r

/-- `fd_open` up to the search for a descriptor. -/
def openNode (w : Vfs) (cwd path : Str) (flags : ℕ) : Act VNode := do
  w.createMissing cwd path flags
  let r ← vfsResolve w.mounts w.root cwd path
  let r ← ofOption r
  truncateFound cwd path r flags

/-- Where a descriptor starts. -/
def startPos (r : VNode) (flags : ℕ) : Act UInt32 := do
  if flags &&& oAppend ≠ 0 ∧ r.node.inode ≠ 0 then
    match ← attempt (getstat r.node.inode) with
    | some st => return UInt32.ofNat st.size
    | none => return 0
  else return 0

/-- The lowest descriptor that is free. -/
def freeFd (w : Vfs) (p : ℕ) : Option (Fin kMaxFd) :=
  (List.finRange kMaxFd).find? fun i => (w.fd p i).n.node.type = 0

/-- `fd_open`. -/
def fdOpen (w : Vfs) (p : ℕ) (path : Str) (flags : ℕ) : Option (Fin kMaxFd) × Vfs :=
  match exec (w.openNode (w.cwd p) path flags) w.vol with
  | (none, vol) => (none, w.setVol vol)
  | (some r, vol) =>
    match w.freeFd p with
    | none => (none, w.setVol vol)
    | some fd =>
      match exec (startPos r flags) vol with
      | (pos, vol) => (some fd, (w.setVol vol).setFd p fd ⟨r, pos.getD 0, flags⟩)

/-- Where `fd_write` writes. -/
def writePos (n : Fs.Node) (e : Slot) : Act UInt32 := do
  if e.flags &&& oAppend ≠ 0 ∧ n.inode ≠ 0 then
    match ← attempt (getstat n.inode) with
    | some st => return UInt32.ofNat st.size
    | none => return e.pos
  else return e.pos

/-- `ext_write`: the size the node has then. -/
def extWrite (n : Fs.Node) (buf : Bytes) (off len : UInt32) : Act ℕ := do
  guard (n.inode ≠ 0)
  writeAt n.inode buf off.toNat len.toNat
  match ← attempt (getstat n.inode) with
  | some st => return st.size
  | none => return n.size

/-- `fd_write` through a descriptor of the node `n` of the volume. -/
def fdWrite (w : Vfs) (p : ℕ) (fd : Fin kMaxFd) (n : Fs.Node) (buf : Bytes)
    (len : UInt32) : ℤ × Vfs :=
  let e := w.fd p fd
  match exec (writePos n e) w.vol with
  | (pos, vol) =>
    let pos := pos.getD e.pos
    match exec (extWrite n buf pos len) vol with
    | (none, vol) => (-1, (w.setVol vol).setFd p fd { e with pos := pos })
    | (some size, vol) =>
      let r := Kernel.toInt len.toNat
      (r, (w.setVol vol).setFd p fd
        ⟨.ext { n with size := size }, UInt32.ofNat (Kernel.advance pos.toNat r), e.flags⟩)

/-- What `lseek` sees of an open file: the size and the position. -/
def seen (e : Slot) : OFile :=
  ⟨⟨e.n.node.name, e.n.node.inode, .file, e.n.node.size, 0, .ext⟩, e.pos.toNat, 0⟩

/-- `lseek`. -/
def lseek (w : Vfs) (p : ℕ) (fd : Fin kMaxFd) (off whence : UInt32) : ℤ × Vfs :=
  let e := w.fd p fd
  if e.n.node.type = 0 then (-1, w)
  else
    let r := (seen e).lseek off whence
    (r.1, w.setFd p fd { e with pos := UInt32.ofNat r.2.pos })

/-- `SYS_fstat`: the inode, the size and the type. -/
def fstat (w : Vfs) (p : ℕ) (fd : Fin kMaxFd) : ℕ × ℕ × ℕ :=
  let n := (w.fd p fd).n.node
  (n.inode, n.size, n.type)

/-! ## The descriptors of a process

`execve` opens its file through the table of the process, over a file system that it is given. -/

/-- A descriptor as the table of a process has it, with the node of the kernel for one of the volume
or of a tree. -/
def fileOf (node : VNode → Aurisys.Node) (e : Slot) : Option OFile :=
  if e.n.node.type = 0 then none else some ⟨node e.n, e.pos.toNat, UInt32.ofNat e.flags⟩

/-- For a process, the file system that `execve` reads from is this one. -/
structure Serves (fs : Files) (node : VNode → Aurisys.Node) (w : Vfs) (p : ℕ)
    (path : Str) : Prop where
  resolve : fs.resolve path =
    ((exec (vfsResolve w.mounts w.root (w.cwd p) path) w.vol).1.bind id).map node
  /-- A node that is found is in use. -/
  type : ∀ r, (exec (vfsResolve w.mounts w.root (w.cwd p) path) w.vol).1 = some (some r) →
    r.node.type ≠ 0

/-- Without flags nothing is created and nothing is truncated. -/
theorem exec_openNode_zero (w : Vfs) (cwd path : Str) : exec (w.openNode cwd path 0) w.vol =
    (((exec (vfsResolve w.mounts w.root cwd path) w.vol).1.bind id),
      (exec (vfsResolve w.mounts w.root cwd path) w.vol).2) := by
  have hmissing : w.createMissing cwd path 0 = pure () := by
    rw [createMissing, if_neg fun h => h.1 (Nat.zero_and oCreat)]
  have htrunc : ∀ r, truncateFound cwd path r 0 = pure r := fun r => by
    rw [truncateFound, if_neg fun h => h.2.2 (Nat.zero_and oTrunc)]
  rw [openNode, hmissing, pure_bind, exec_bind]
  obtain ⟨_ | _ | r, vol⟩ := exec (vfsResolve w.mounts w.root cwd path) w.vol
  · rfl
  · rfl
  · dsimp only
    rw [exec_bind, ofOption, exec_pure]
    dsimp only
    rw [htrunc, exec_pure]
    rfl

/-- **Without flags** `fd_open` over the volume opens what `fd_open` of the process does: the same
descriptor, for the same node. -/
theorem fdOpen_refines {H : Type} {k : Kernel H} {fs : Files} {node : VNode → Aurisys.Node}
    {w : Vfs} {p : ℕ}
    {path : Str} (hfd : ∀ i, k.fds i = fileOf node (w.fd p i)) (hfs : Serves fs node w p path) :
    (k.fdOpen fs path).1 = (w.fdOpen p path 0).1 ∧
      ∀ i, (k.fdOpen fs path).2.fds i = fileOf node ((w.fdOpen p path 0).2.fd p i) := by
  obtain ⟨hres, htype⟩ := hfs
  have hfree : ((List.finRange kMaxFd).find? fun i => (k.fds i).isNone) = w.freeFd p := by
    rw [freeFd]
    refine List.find?_congr fun i _ => ?_
    rw [hfd, fileOf]
    split
    · next h => simp [h]
    · next h => simp [h]
  rw [Kernel.fdOpen, fdOpen, exec_openNode_zero, hres, hfree]
  generalize exec (vfsResolve w.mounts w.root (w.cwd p) path) w.vol = q at htype ⊢
  rcases q with ⟨_ | _ | r, vol⟩
  · exact ⟨rfl, hfd⟩
  · exact ⟨rfl, hfd⟩
  · dsimp only [Option.bind_some, id, Option.map_some]
    cases hlow : w.freeFd p with
    | none => exact ⟨rfl, hfd⟩
    | some fd =>
      have hpos : exec (startPos r 0) vol = (some 0, vol) := by
        rw [startPos, if_neg fun h => h.1 (Nat.zero_and oAppend)]
        rfl
      have hk : (k.setFd fd (some ⟨node r, 0, 0⟩)).fds = Function.update k.fds fd
        (some ⟨node r, 0, 0⟩) :=
        congrArg Task.fd (Function.update_self k.current _ k.tasks)
      have hw : ((w.setVol vol).setFd p fd ⟨r, 0, 0⟩).fd p =
        Function.update (w.fd p) fd ⟨r, 0, 0⟩ :=
        Function.update_self ..
      dsimp only
      rw [hpos]
      refine ⟨rfl, fun i => ?_⟩
      rw [hk, Option.getD_some, hw]
      by_cases hi : i = fd
      · rw [hi, Function.update_self, Function.update_self, fileOf, if_neg (htype r rfl)]
        rfl
      · rw [Function.update_of_ne hi, Function.update_of_ne hi, hfd]

end Vfs

end Aurisys
