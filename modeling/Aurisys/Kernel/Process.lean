import Aurisys.Kernel.Paging
import Aurisys.Kernel.Task
import Mathlib.Data.List.FinRange

/-!
# Processes: fork, exit, and what is left of a process

The process table and the calls on it of `task.cpp`. A process is a slot of the table; its number
is the number of the slot and one, so that it is used again as soon as the slot is.

## Scope

`g_current` is set by `task::init` before anything else here runs, so it is a slot and not a
pointer that can be null. The bytes in the pipes are left out; who holds which end is not, since
`fork_user` and `fd_close_all` count it. Switching the stack is left to `task_switch_asm`, which is
assembly: the calls that end in `schedule` are modelled up to that point.

## Main definitions

* `Kernel` — memory, pipes and the process table
* `forkUser`, `exit`, `reap`, `destroy`
* `announce`, `takeDone` — how a parent hears of it
-/

namespace Aurisys

open Paging

/-- The kernel's state. -/
structure Kernel (H : Type) where
  mmu : Mmu H
  /-- `g_pipes`, by address. -/
  pipes : ℕ → Pipe
  /-- `g_tasks`. -/
  tasks : Fin kMaxTask → Task
  /-- `g_current`. -/
  current : Fin kMaxTask

namespace Kernel

variable {H : Type}

@[simps -fullyApplied] def setMmu (k : Kernel H) (m : Mmu H) : Kernel H := { k with mmu := m }

@[simps -fullyApplied] def setPipes (k : Kernel H) (pipes : ℕ → Pipe) : Kernel H :=
  { k with pipes := pipes }

@[simps -fullyApplied] def setTask (k : Kernel H) (i : Fin kMaxTask) (t : Task) : Kernel H :=
  { k with tasks := Function.update k.tasks i t }

theorem setTask_setTask (k : Kernel H) (i : Fin kMaxTask) (t t' : Task) :
    (k.setTask i t).setTask i t' = k.setTask i t' := by
  simp only [setTask, Function.update_idem]

/-! ## The table -/

/-- `free_slot`; slot `0` is the first process. -/
def freeSlot (k : Kernel H) : Option (Fin kMaxTask) :=
  (List.finRange kMaxTask).find? fun i => i ≠ 0 ∧ (k.tasks i).state = .free

theorem freeSlot_eq_some {k : Kernel H} {i : Fin kMaxTask} (h : k.freeSlot = some i) :
    i ≠ 0 ∧ (k.tasks i).state = .free := by
  simpa using List.find?_some h

theorem freeSlot_eq_none {k : Kernel H} :
    k.freeSlot = none ↔ ∀ i, i ≠ 0 → (k.tasks i).state ≠ .free := by
  simp [freeSlot, List.find?_eq_none]

/-- `find`. -/
def find (k : Kernel H) (pid : ℕ) : Option (Fin kMaxTask) :=
  (List.finRange kMaxTask).find? fun i => (k.tasks i).state ≠ .free ∧ (k.tasks i).pid = pid

/-- `purge_notes`. -/
def purgeNotes (k : Kernel H) (pid : ℕ) : Kernel H :=
  { k with tasks := fun i =>
    { k.tasks i with done := (k.tasks i).done.filter fun n => n.pid ≠ pid } }

/-- `count_fds`. -/
def countFds (fd : Fin kMaxFd → Option OFile) : ℕ :=
  ((List.finRange kMaxFd).filter fun i => (fd i).isSome).length

/-- `unblock`. -/
def unblock (k : Kernel H) (i : Fin kMaxTask) : Kernel H :=
  if (k.tasks i).state = .blocked then k.setTask i { k.tasks i with state := .ready }
  else k.setTask i { k.tasks i with wakePending := true }

/-! ## Open files -/

/-- `fd_share`. -/
def fdShare (pipes : ℕ → Pipe) (f : OFile) : ℕ → Pipe :=
  if f.n.type ≠ .fifo ∨ f.n.internal = 0 then pipes
  else
    let p := pipes f.n.internal
    Function.update pipes f.n.internal
      (if f.flags &&& kPipeWriteEnd ≠ 0 then { p with writers := p.writers + 1 }
      else { p with readers := p.readers + 1 })

/-- The loop of `fork_user` over the descriptors the child has got. -/
def fdShareAll (pipes : ℕ → Pipe) (fd : Fin kMaxFd → Option OFile) : ℕ → Pipe :=
  (List.finRange kMaxFd).foldl (fun pipes i => (fd i).elim pipes (fdShare pipes)) pipes

/-- `fd_unshare`. -/
def fdUnshare (k : Kernel H) (f : OFile) : Kernel H :=
  if f.n.type ≠ .fifo ∨ f.n.internal = 0 then k
  else
    let a := f.n.internal
    let writeEnd := f.flags &&& kPipeWriteEnd ≠ 0
    let p := k.pipes a
    let p := if writeEnd then { p with writers := p.writers - 1 }
      else { p with readers := p.readers - 1 }
    -- a party waiting on the far side is waiting for a count to move
    let wakeRd := if writeEnd ∧ p.writers = 0 then p.rdWait else none
    let k := wakeRd.elim k k.unblock
    let p := if wakeRd.isSome then { p with rdWait := none } else p
    let wakeWr := if ¬writeEnd ∧ p.readers = 0 then p.wrWait else none
    let k := wakeWr.elim k k.unblock
    let p := if wakeWr.isSome then { p with wrWait := none } else p
    let p := if p.writers = 0 ∧ p.readers = 0 then { p with opened := false } else p
    k.setPipes (Function.update k.pipes a p)

/-- `close_in`; the buffer of a memory window is the window's own business. -/
def closeIn (k : Kernel H) (i : Fin kMaxTask) (fd : Fin kMaxFd) : Kernel H :=
  let k := ((k.tasks i).fd fd).elim k k.fdUnshare
  k.setTask i { k.tasks i with fd := Function.update (k.tasks i).fd fd none }

/-- `fd_close_all`. -/
def fdCloseAll (k : Kernel H) (i : Fin kMaxTask) : Kernel H :=
  (List.finRange kMaxFd).foldl
    (fun k fd => if ((k.tasks i).fd fd).isSome then k.closeIn i fd else k) k

/-! ## The end of a process -/

/-- `announce`: the parent is told, if it is there and has room for it. -/
def announce (k : Kernel H) (i : Fin kMaxTask) : Kernel H :=
  let t := k.tasks i
  match k.find t.ppid with
  | none => k
  | some p =>
    if p = i then k
    else
      let parent := k.tasks p
      if kMaxTask ≤ parent.done.length then k
      else
        let note := ⟨t.pid, if t.signal ≠ 0 then 128 + t.signal else t.exitCode⟩
        let k := k.setTask p { parent with done := parent.done ++ [note] }
        if parent.waiting then k.unblock p else k

/-- `take_done`: the first note that fits, and the last one moves into the hole. -/
def takeDone (t : Task) (pid : ℕ) : Option (Note × Task) :=
  (t.done.findIdx? fun n => pid = 0 ∨ n.pid = pid).bind fun i =>
    t.done[i]?.map fun n =>
      (n, { t with done := (t.done.set i (t.done.getLast?.getD n)).dropLast })

section

variable [PageAlloc H]

/-- `destroy`. -/
def destroy (k : Kernel H) (i : Fin kMaxTask) : Kernel H :=
  let t := k.tasks i
  if t.state = .free then k
  else
    let m := k.mmu.spaceDestroy t.sp
    let m := if t.kstack ≠ 0 then m.kfree (t.kstack - kKernelStackBytes) else m
    let m := if t.ownsFrames then
        ((m.kframeFree t.heapBase).kframeFree t.codeBase).kframeFree t.stackBase
      else m
    (k.setMmu m).setTask i { t with
      sp := 0, kstack := 0, heapBase := 0, heapEnd := 0, brk := 0, codeBase := 0, stackBase := 0
      ownsFrames := false, state := .free }

/-- A killed process becomes a zombie, as in the loop of `reap`. -/
def bury (k : Kernel H) (i : Fin kMaxTask) : Kernel H :=
  let t := k.tasks i
  let k := k.setTask i { t with exitCode := 128 + t.signal, state := .zombie }
  (k.fdCloseAll i).announce i

/-- The body of the loop of `reap`. -/
def reapSlot (k : Kernel H) (i : Fin kMaxTask) : Kernel H :=
  let k := if (k.tasks i).state = .killed then k.bury i else k
  if (k.tasks i).state ≠ .zombie ∨ i = k.current then k else k.destroy i

/-- `reap`, from slot `1` on. `none` is the panic when the first process is gone. -/
def reap (k : Kernel H) : Option (Kernel H) :=
  if (k.tasks 0).pid = 1 ∧ ((k.tasks 0).state = .zombie ∨ (k.tasks 0).state = .killed) then none
  else some ((List.finRange kMaxTask).tail.foldl reapSlot k)

/-- `exit`, up to `schedule`. -/
def exit (k : Kernel H) (code : UInt32) : Kernel H :=
  let i := k.current
  let t := k.tasks i
  let k := k.setTask i { t with
    exitCode := code, state := .zombie
    signal := if t.state ≠ .killed then kSigNone else t.signal }
  let k := (k.fdCloseAll i).announce i
  k.setTask i { k.tasks i with inSyscall := true }

/-! ## A new process -/

/-- The process image that `give_frames` found room for. -/
def setFrames (t : Task) (code stack heap : ℕ) : Task :=
  { t with
    codeBase := code, stackBase := stack, heapBase := heap, codeBytes := kCodeBytes
    heapEnd := heap + kArenaBytes, brk := heap }

def noFrames (t : Task) : Task := { t with codeBase := 0, stackBase := 0, heapBase := 0 }

/-- `give_frames`. -/
def giveFrames (m : Mmu H) (t : Task) : Bool × Task × Mmu H :=
  let (code, m) := m.kframeAllocN (kCodeBytes / 4096)
  let (stack, m) := m.kframeAllocN (kStackBytes / 4096)
  let (heap, m) := m.kframeAllocN (kArenaBytes / 4096)
  if code = 0 ∨ stack = 0 ∨ heap = 0 then
    (false, noFrames t, ((m.kframeFree code).kframeFree stack).kframeFree heap)
  else (true, setFrames t code stack heap, m)

/-- The table entry of the child that `fork_user` fills in. -/
def childOf (p : Task) (slot : Fin kMaxTask) (sp kstack : ℕ) (frame : Registers) : Task :=
  { Task.zero with
    sp := sp
    kstack := kstack + kKernelStackBytes
    quantum := kQuantum
    pid := slot + 1
    ppid := p.pid
    name := [0x66, 0x6F, 0x72, 0x6B]
    fd := p.fd
    nfd := countFds p.fd
    cwd := p.cwd
    ownsFrames := false
    heapBase := p.heapBase
    heapEnd := p.heapEnd
    brk := p.brk
    codeBase := p.codeBase
    codeBytes := p.codeBytes
    stackBase := p.stackBase
    regs := { frame with eax := 0 }
    state := .ready
    armed := true }

/-- `fork_user`: the number of the child, or `0`. -/
def forkUser (k : Kernel H) (frame : Registers) : ℕ × Kernel H :=
  let p := k.tasks k.current
  if p.sp = 0 then (0, k)
  else if !frame.fromUser then (0, k)
  else
    match k.freeSlot with
    | none => (0, k)
    | some slot =>
      let k := k.purgeNotes (slot + 1)
      let (sp, m) := k.mmu.spaceCreate
      let k := (k.setMmu m).setTask slot { Task.zero with sp := sp }
      if sp = 0 then (0, k)
      else
        let (ok, m) := m.spaceShareUser sp p.sp
        if !ok then (0, k.setMmu (m.spaceDestroy sp))
        else
          let (kstack, m) := m.kframeAllocN (kKernelAlloc / 4096)
          if kstack = 0 then (0, (k.setMmu m).setTask slot .zero)
          else
            let t := childOf p slot sp kstack frame
            (t.pid, ((k.setMmu m).setTask slot t).setPipes (fdShareAll k.pipes t.fd))

/-- What `fork_user` can come to: it makes no process for one of four reasons, or it makes one. -/
inductive ForkSpec (k : Kernel H) (frame : Registers) : ℕ × Kernel H → Prop where
  | refused (h : (k.tasks k.current).sp = 0 ∨ frame.fromUser = false ∨ k.freeSlot = none) :
      ForkSpec k frame (0, k)
  | noSpace {slot : Fin kMaxTask} {m : Mmu H} (hslot : k.freeSlot = some slot)
      (hspace : k.mmu.spaceCreate = (0, m)) :
      ForkSpec k frame (0, ((k.purgeNotes (slot + 1)).setMmu m).setTask slot .zero)
  | noShare {slot : Fin kMaxTask} {sp : ℕ} {m m' : Mmu H} (hslot : k.freeSlot = some slot)
      (hspace : k.mmu.spaceCreate = (sp, m)) (hsp : sp ≠ 0)
      (hshare : m.spaceShareUser sp (k.tasks k.current).sp = (false, m')) :
      ForkSpec k frame (0, ((k.purgeNotes (slot + 1)).setMmu (m'.spaceDestroy sp)).setTask slot
        { Task.zero with sp := sp })
  | noStack {slot : Fin kMaxTask} {sp : ℕ} {m m' m'' : Mmu H} (hslot : k.freeSlot = some slot)
      (hspace : k.mmu.spaceCreate = (sp, m)) (hsp : sp ≠ 0)
      (hshare : m.spaceShareUser sp (k.tasks k.current).sp = (true, m'))
      (hstack : m'.kframeAllocN (kKernelAlloc / 4096) = (0, m'')) :
      ForkSpec k frame (0, ((k.purgeNotes (slot + 1)).setMmu m'').setTask slot .zero)
  | forked {slot : Fin kMaxTask} {sp kstack : ℕ} {m m' m'' : Mmu H}
      (hslot : k.freeSlot = some slot) (hspace : k.mmu.spaceCreate = (sp, m)) (hsp : sp ≠ 0)
      (hshare : m.spaceShareUser sp (k.tasks k.current).sp = (true, m'))
      (hstack : m'.kframeAllocN (kKernelAlloc / 4096) = (kstack, m'')) (hk : kstack ≠ 0) :
      ForkSpec k frame (slot + 1,
        (((k.purgeNotes (slot + 1)).setMmu m'').setTask slot
          (childOf (k.tasks k.current) slot sp kstack frame)).setPipes
            (fdShareAll k.pipes (k.tasks k.current).fd))

theorem forkUser_spec (k : Kernel H) (frame : Registers) :
    ForkSpec k frame (k.forkUser frame) := by
  rw [forkUser]
  split
  · next h => exact .refused (Or.inl h)
  · split
    · next h => exact .refused (Or.inr (Or.inl (by simpa using h)))
    · split
      · next h => exact .refused (Or.inr (Or.inr h))
      · next slot hslot =>
        have hmmu : (k.purgeNotes (slot + 1)).mmu = k.mmu := rfl
        dsimp only
        rw [hmmu]
        rcases hspace : k.mmu.spaceCreate with ⟨sp, m⟩
        dsimp only
        split
        · next h =>
          subst h
          exact .noSpace hslot hspace
        · next hsp =>
          rcases hshare : m.spaceShareUser sp (k.tasks k.current).sp with ⟨ok, m'⟩
          dsimp only
          cases ok with
          | false => exact .noShare hslot hspace hsp hshare
          | true =>
            rcases hstack : m'.kframeAllocN (kKernelAlloc / 4096) with ⟨kstack, m''⟩
            simp only [Bool.not_true, Bool.false_eq_true, if_false]
            split
            · next h =>
              subst h
              have : ForkSpec k frame _ := .noStack hslot hspace hsp hshare hstack
              rwa [← setTask_setTask] at this
            · next hk =>
              have : ForkSpec k frame _ := .forked hslot hspace hsp hshare hstack hk
              rwa [← setTask_setTask] at this

end

end Kernel

end Aurisys
