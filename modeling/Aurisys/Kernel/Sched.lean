import Aurisys.Kernel.Process
import Aurisys.Kernel.Signal

/-!
# The scheduler

Who runs next, and what makes a process ready, blocked or dead: the timer, the keyboard, signals,
faults, and the calls a process makes to wait. `Op` has a name for each of these, and a run is any
sequence of them.

## Interleavings

A tick does not switch away from a task that is in the kernel, but ticks come there: in
`task_switch_now`, which waits with interrupts on, between the choice of the next task and the
switch to it, and before there is one to choose; and in a call that has parked, which goes on with
interrupts on. So `schedule` is three operations, `reap`, `pick` and `switch`, and `pending` is the
choice that was made. The other operations are taken to be whole: a tick that comes in the middle of
one, after a park, is modelled as coming in front of it or behind it, although an interrupt key
could kill the caller between two of its stores. The rest of what a process does to its own table
entry, or a device to itself, may happen at any time; it is in `work` and `outside`, which set such
fields to anything.

## Scope

The registers and the signal state of a task that is switched to change as `deliver_pending` says;
the frame this leaves on the user stack is the business of `Kernel.Signal`. Of a terminal there are
its owner and whether it sends signals, not the line it holds. What was saved on a kernel stack by
`push_frame` is read by assembly only.

## Main definitions

* `switchTo`, `pick`, `block`, `preempt`, `onTick`, `signalTask`, `kill`, `create`
* `Machine`, `Op`, `Machine.step`
* `Wakes` — a change of the table that makes blocked tasks ready and nothing else
-/

namespace Aurisys

open Paging

namespace Kernel

variable {H : Type}

/-! ## Switching -/

/-- What `deliver_pending` does to the table entry. -/
def delivered (t : Task) : Task :=
  let x := Signal.deliverPending ⟨t, t.regs, fun _ => 0⟩
  { x.task with regs := x.regs }

/-- `switch_to`, up to the change of stacks. -/
def switchTo (k : Kernel H) (dst : Fin kMaxTask) : Kernel H :=
  let cur := k.tasks k.current
  let k := if cur.state = .running then k.setTask k.current { cur with state := .ready } else k
  let t := { k.tasks dst with state := .running, quantum := kQuantum }
  let t := if !t.inSyscall && t.regs.fromUser then delivered t else t
  { (k.setMmu (k.mmu.spaceSwitch t.sp)).setTask dst t with current := dst }

/-- `pick`: the first task that is ready, from the one after the current one on. -/
def pick (k : Kernel H) : Option (Fin kMaxTask) :=
  ((List.finRange kMaxTask).map fun i => k.current + 1 + i).find? fun s =>
    (k.tasks s).state = .ready ∧ (k.tasks s).armed

/-- `block`, up to `schedule`: whether the task parks. -/
def block (k : Kernel H) : Bool × Kernel H :=
  let t := k.tasks k.current
  if t.state = .blocked then (false, k)
  else if t.wakePending then
    (false,
      k.setTask k.current { t with state := .running, inSyscall := false, wakePending := false })
  else (true, k.setTask k.current { t with state := .blocked, inSyscall := true })

/-- `resume_after_exec`. -/
def resumeAfterExec (k : Kernel H) : Kernel H :=
  k.setTask k.current { k.tasks k.current with inSyscall := false, state := .running }

/-- `become_first`, up to `yield`. -/
def becomeFirst (k : Kernel H) : Kernel H :=
  k.setTask 0 { k.tasks 0 with inSyscall := false, state := .ready }

/-- A note is taken from the list of the task that runs. -/
def collect (k : Kernel H) (pid : ℕ) : Kernel H :=
  (takeDone (k.tasks k.current) pid).elim k fun r => k.setTask k.current r.2

/-! ## Signals -/

def kSigInt : UInt32 := 2

/-- The signal has a handler. -/
def Handled (t : Task) (sig : UInt32) : Prop :=
  ∃ h : sig.toNat < kSigMax, sig ≠ kSigKill ∧ t.sigHandlers ⟨sig.toNat, h⟩ ≠ 0

instance (t : Task) (sig : UInt32) : Decidable (Handled t sig) :=
  inferInstanceAs (Decidable (∃ _ : _, _))

/-- `signal_task`. -/
def signalTask (k : Kernel H) (pid : ℕ) (sig : UInt32) : Bool × Kernel H :=
  match k.find pid with
  | none => (false, k)
  | some i =>
    let t := k.tasks i
    if t.state = .zombie ∨ t.state = .killed then (false, k)
    else if Handled t sig then
      let k := k.setTask i { t with sigPending := sig }
      (true, if t.state = .blocked then k.unblock i else k)
    else (true, k.setTask i { t with signal := sig, state := .killed })

/-- `kill`, up to `schedule` when the process ends itself. -/
def kill (k : Kernel H) (pid : ℕ) (sig : UInt32) : Bool × Kernel H :=
  let (ok, k) := k.signalTask pid sig
  if !ok then (false, k)
  else if (k.tasks k.current).pid = pid then (true, k.exit (128 + sig))
  else (true, k)

/-- `fault_signal`. -/
def faultSignal (intNo : ℕ) : UInt32 :=
  match intNo with
  | 6 => 4
  | 8 | 11 | 12 | 13 => 7
  | 14 => kSigSegv
  | _ => 4

/-- `kill_user_fault`, up to `schedule`. -/
def killUserFault (k : Kernel H) (intNo : ℕ) : Kernel H :=
  (k.setTask k.current { k.tasks k.current with
    signal := faultSignal intNo, state := .killed }).exit 128

/-! ## Ticks and keys -/

/-- The body of the loop of `on_tick`. -/
def tickSlot (now : ℕ) (k : Kernel H) (i : Fin kMaxTask) : Kernel H :=
  let t := k.tasks i
  if t.state = .blocked ∧ t.sleepUntil ≠ 0 ∧ t.sleepUntil ≤ now then
    (k.setTask i { t with sleepUntil := 0 }).unblock i
  else if t.state = .blocked ∧ t.sigPending ≠ 0 ∧ !t.waiting then k.unblock i
  else k

/-- `tty_input`: an interrupt goes to the owner of the terminal, or to whoever runs. -/
def ttyInput (owner : ℕ) (sigs : Bool) (k : Kernel H) (c : UInt8) : Kernel H :=
  if c = 3 ∧ sigs then
    let pid := if owner ≠ 0 then owner else (k.tasks k.current).pid
    if pid ≠ 0 then (k.signalTask pid kSigInt).2 else k
  else k

/-- `kbd::wake`. -/
def kbdWake (k : Kernel H) (wait : List (Fin kMaxTask)) : Kernel H := wait.foldl unblock k

/-! ## Wakeups -/

/-- The entry differs in nothing a parent or `find` asks for. -/
structure SameLife (t t' : Task) : Prop where
  pid : t'.pid = t.pid
  ppid : t'.ppid = t.ppid
  state : t'.state = t.state
  done : t'.done = t.done

theorem SameLife.refl (t : Task) : SameLife t t := ⟨rfl, rfl, rfl, rfl⟩

instance (t t' : Task) : Decidable (SameLife t t') :=
  decidable_of_iff (t'.pid = t.pid ∧ t'.ppid = t.ppid ∧ t'.state = t.state ∧ t'.done = t.done)
    ⟨fun ⟨h₁, h₂, h₃, h₄⟩ => ⟨h₁, h₂, h₃, h₄⟩, fun ⟨h₁, h₂, h₃, h₄⟩ => ⟨h₁, h₂, h₃, h₄⟩⟩

/-- The only thing that happens to a task is that it stops being blocked. -/
structure Wakes (k k' : Kernel H) : Prop where
  current : k'.current = k.current
  pid : ∀ i, (k'.tasks i).pid = (k.tasks i).pid
  ppid : ∀ i, (k'.tasks i).ppid = (k.tasks i).ppid
  done : ∀ i, (k'.tasks i).done = (k.tasks i).done
  /-- A task is as it was, or has been woken. -/
  state : ∀ i, (k'.tasks i).state = (k.tasks i).state ∨
    (k.tasks i).state = .blocked ∧ (k'.tasks i).state = .ready

variable {k k' k'' : Kernel H} {i : Fin kMaxTask}

theorem Wakes.refl (k : Kernel H) : Wakes k k :=
  ⟨rfl, fun _ => rfl, fun _ => rfl, fun _ => rfl, fun _ => Or.inl rfl⟩

theorem Wakes.trans (h : Wakes k k') (h' : Wakes k' k'') : Wakes k k'' := by
  refine ⟨h'.current.trans h.current, fun i => (h'.pid i).trans (h.pid i),
    fun i => (h'.ppid i).trans (h.ppid i), fun i => (h'.done i).trans (h.done i), fun i => ?_⟩
  rcases h.state i with h1 | ⟨h1, h1'⟩
  · rcases h'.state i with h2 | ⟨h2, h2'⟩
    · exact Or.inl (h2.trans h1)
    · exact Or.inr ⟨h1.symm.trans h2, h2'⟩
  · rcases h'.state i with h2 | ⟨h2, -⟩
    · exact Or.inr ⟨h1, h2.trans h1'⟩
    · rw [h1'] at h2
      cases h2

theorem Wakes.foldl {β : Type} {f : Kernel H → β → Kernel H} (h : ∀ k b, Wakes k (f k b))
    (k : Kernel H) (l : List β) : Wakes k (l.foldl f k) := by
  induction l generalizing k with
  | nil => exact .refl k
  | cons b l ih => exact (h k b).trans (ih _)

theorem Wakes.setTask {t : Task} (h : SameLife (k.tasks i) t) : Wakes k (k.setTask i t) := by
  have htask : ∀ j, (k.setTask i t).tasks j = if j = i then t else k.tasks j := fun j => by
    rw [setTask_tasks, Function.update_apply]
  refine ⟨rfl, fun j => ?_, fun j => ?_, fun j => ?_, fun j => Or.inl ?_⟩ <;> rw [htask] <;> split
  · next hj => rw [hj, h.pid]
  · rfl
  · next hj => rw [hj, h.ppid]
  · rfl
  · next hj => rw [hj, h.done]
  · rfl
  · next hj => rw [hj, h.state]
  · rfl

theorem Wakes.setPipes (k : Kernel H) (pipes : ℕ → Pipe) : Wakes k (k.setPipes pipes) :=
  ⟨rfl, fun _ => rfl, fun _ => rfl, fun _ => rfl, fun _ => Or.inl rfl⟩

theorem Wakes.setMmu (k : Kernel H) (m : Mmu H) : Wakes k (k.setMmu m) :=
  ⟨rfl, fun _ => rfl, fun _ => rfl, fun _ => rfl, fun _ => Or.inl rfl⟩

/-- **`unblock`.** -/
theorem wakes_unblock (k : Kernel H) (i : Fin kMaxTask) : Wakes k (k.unblock i) := by
  rw [unblock]
  split
  · next hb =>
    have htask : ∀ j, (k.setTask i { k.tasks i with state := .ready }).tasks j
        = if j = i then { k.tasks i with state := .ready } else k.tasks j := fun j => by
      rw [setTask_tasks, Function.update_apply]
    refine ⟨rfl, fun j => ?_, fun j => ?_, fun j => ?_, fun j => ?_⟩ <;> rw [htask] <;> split
    · next hj => rw [hj]
    · rfl
    · next hj => rw [hj]
    · rfl
    · next hj => rw [hj]
    · rfl
    · next hj =>
      rw [hj]
      exact Or.inr ⟨hb, rfl⟩
    · exact Or.inl rfl
  · exact .setTask ⟨rfl, rfl, rfl, rfl⟩

theorem wakes_elim_unblock (k : Kernel H) (o : Option (Fin kMaxTask)) :
    Wakes k (o.elim k k.unblock) := by
  cases o with
  | none => exact .refl k
  | some i => exact wakes_unblock k i

theorem wakes_fdUnshare (k : Kernel H) (f : OFile) : Wakes k (k.fdUnshare f) := by
  rw [fdUnshare]
  split
  · exact .refl k
  · exact ((wakes_elim_unblock k _).trans (wakes_elim_unblock _ _)).trans (.setPipes _ _)

theorem wakes_closeIn (k : Kernel H) (i : Fin kMaxTask) (fd : Fin kMaxFd) :
    Wakes k (k.closeIn i fd) := by
  have h : Wakes k (((k.tasks i).fd fd).elim k k.fdUnshare) := by
    cases (k.tasks i).fd fd with
    | none => exact .refl k
    | some f => exact wakes_fdUnshare k f
  exact h.trans (.setTask ⟨rfl, rfl, rfl, rfl⟩)

theorem wakes_fdCloseAll (k : Kernel H) (i : Fin kMaxTask) : Wakes k (k.fdCloseAll i) := by
  refine Wakes.foldl (fun k fd => ?_) k _
  split
  · exact wakes_closeIn k i fd
  · exact .refl k

theorem wakes_tickSlot (now : ℕ) (k : Kernel H) (i : Fin kMaxTask) :
    Wakes k (tickSlot now k i) := by
  rw [tickSlot]
  split
  · refine Wakes.trans ?_ (wakes_unblock _ i)
    exact .setTask ⟨rfl, rfl, rfl, rfl⟩
  · split
    · exact wakes_unblock k i
    · exact .refl k

theorem wakes_kbdWake (k : Kernel H) (wait : List (Fin kMaxTask)) : Wakes k (k.kbdWake wait) :=
  Wakes.foldl wakes_unblock k wait

variable [PageAlloc H]

/-- `preempt`: whether the tick took the processor away. `none` is the panic of `reap`. -/
def preempt (k : Kernel H) (r : Registers) : Option (Bool × Kernel H) :=
  let t := k.tasks k.current
  let dead := t.state = .zombie ∨ t.state = .killed
  let rest (k : Kernel H) : Option (Bool × Kernel H) :=
    k.reap.map fun k =>
      match k.pick with
      | none => (false, k)
      | some dst => if dst = k.current then (false, k) else (true, k.switchTo dst)
  if dead then rest k
  else if !r.fromUser then some (false, k)
  else if t.quantum - 1 ≠ 0 then
    some (false, k.setTask k.current { t with quantum := t.quantum - 1 })
  else rest (k.setTask k.current { t with quantum := 0, regs := r, inSyscall := false })

/-- The table entry `create` fills in. -/
def createdTask (cur : Task) (t : Task) (slot : Fin kMaxTask) (name : List UInt8) : Task :=
  { t with
    ownsFrames := true
    kstack := t.kstack + kKernelStackBytes
    quantum := kQuantum
    pid := slot + 1
    ppid := cur.pid
    state := .ready
    armed := false
    regs := { t.regs with cs := 0 }
    name := name.take 15
    fd := cur.fd
    nfd := countFds cur.fd
    cwd := cur.cwd }

/-- A slot that is being filled. -/
def freshTask (sp kstack : ℕ) : Task := { Task.zero with sp := sp, kstack := kstack }

/-- `create`. -/
def create (k : Kernel H) (name : List UInt8) : Option (Fin kMaxTask) × Kernel H :=
  match k.freeSlot with
  | none => (none, k)
  | some slot =>
    let (sp, m) := k.mmu.spaceCreate
    if sp = 0 then (none, (k.setMmu m).setTask slot (freshTask 0 0))
    else
      let (kstack, m) := m.kframeAllocN (kKernelAlloc / 4096)
      if kstack = 0 then (none, (k.setMmu (m.spaceDestroy sp)).setTask slot (freshTask sp 0))
      else
        let r := giveFrames m (freshTask sp kstack)
        if !r.1 then
          (none, (k.setMmu ((r.2.2.kfree kstack).spaceDestroy sp)).setTask slot r.2.1)
        else
          let t := createdTask (k.tasks k.current) r.2.1 slot name
          (some slot, ((k.setMmu r.2.2).setTask slot t).setPipes (fdShareAll k.pipes t.fd))

end Kernel

/-! ## The machine -/

/-- The kernel, its clock, and the devices that wake and signal tasks. -/
structure Machine (H : Type) where
  k : Kernel H
  /-- `g_ticks`. -/
  ticks : ℕ
  /-- The tasks in `kbd::g_wait`. -/
  kbdWait : List (Fin kMaxTask)
  /-- `g_tty.owner`. -/
  owner : ℕ
  /-- The `kTtySig` bit of `g_tty.flags`. -/
  sigs : Bool
  /-- The task that `task_switch_now` is about to switch to. -/
  pending : Option (Fin kMaxTask)

/-- What can happen. -/
inductive Op (H : Type) where
  | create (name : List UInt8)
  | arm (i : Fin kMaxTask)
  | fork (frame : Registers)
  | destroy (i : Fin kMaxTask)
  | becomeFirst
  | block
  | unblock (i : Fin kMaxTask)
  | resumeAfterExec
  | reap
  | pick
  | switch
  | kill (pid : ℕ) (sig : UInt32)
  | fault (intNo : ℕ)
  | exit (code : UInt32)
  /-- The tick, with the keys it finds and whether the serial line has more. -/
  | tick (keys : List UInt8) (serial : Bool)
  /-- The end of the tick. -/
  | preempt (r : Registers)
  /-- The keyboard interrupt. -/
  | key
  /-- `tty_drain` on behalf of a reader. -/
  | drain (keys : List UInt8)
  /-- A parent takes a note, for a child or for any. -/
  | collect (pid : ℕ)
  /-- Another call changes the table entry of the task that makes it. -/
  | work (t : Task)
  /-- Memory, pipes and devices change. -/
  | outside (mmu : Mmu H) (pipes : ℕ → Pipe) (kbdWait : List (Fin kMaxTask)) (owner : ℕ)
      (sigs : Bool)

namespace Machine

variable {H : Type}

@[simps] def setKernel (w : Machine H) (k : Kernel H) : Machine H := { w with k := k }

/-- `tty_drain`: what was typed goes to the terminal, and then its readers are woken. -/
def ttyDrain (w : Machine H) (keys : List UInt8) : Machine H :=
  let k := keys.foldl (Kernel.ttyInput w.owner w.sigs) w.k
  if keys = [] then w else { w with k := k.kbdWake w.kbdWait, kbdWait := [] }

/-- `kbd::wake`. -/
def wake (w : Machine H) : Machine H := { w with k := w.k.kbdWake w.kbdWait, kbdWait := [] }

/-- The first half of `on_tick`: who has slept long enough, or has a signal, is woken. -/
def ticked (w : Machine H) : Machine H :=
  { w with
    k := (List.finRange kMaxTask).foldl (Kernel.tickSlot (w.ticks + 1)) w.k
    ticks := w.ticks + 1 }

/-- `on_tick`. -/
def onTick (w : Machine H) (keys : List UInt8) (serial : Bool) : Machine H :=
  let w := w.ticked.ttyDrain keys
  if serial then w.wake else w

variable [PageAlloc H]

/-- One operation; `none` is a panic. -/
def step (w : Machine H) : Op H → Option (Machine H)
  | .create name => some (w.setKernel (w.k.create name).2)
  | .arm i => some (w.setKernel (w.k.setTask i { w.k.tasks i with armed := true }))
  | .fork frame => some (w.setKernel (w.k.forkUser frame).2)
  | .destroy i => some (w.setKernel (w.k.destroy i))
  | .becomeFirst => some (w.setKernel w.k.becomeFirst)
  | .block => some (w.setKernel w.k.block.2)
  | .unblock i => some (w.setKernel (w.k.unblock i))
  | .resumeAfterExec => some (w.setKernel w.k.resumeAfterExec)
  | .reap => w.k.reap.map w.setKernel
  | .pick => some { w with pending := w.k.pick }
  | .switch =>
    match w.pending with
    | none => some w
    | some dst => some { w with k := w.k.switchTo dst, pending := none }
  | .kill pid sig => some (w.setKernel (w.k.kill pid sig).2)
  | .fault intNo => some (w.setKernel (w.k.killUserFault intNo))
  | .exit code => some (w.setKernel (w.k.exit code))
  | .tick keys serial => some (w.onTick keys serial)
  | .preempt r =>
    (w.k.preempt r).map fun (switched, k) =>
      { w with k := k, pending := if switched then none else w.pending }
  | .key => some w.wake
  | .drain keys => some (w.ttyDrain keys)
  | .collect pid => some (w.setKernel (w.k.collect pid))
  | .work t => some (w.setKernel (w.k.setTask w.k.current t))
  | .outside mmu pipes kbdWait owner sigs =>
    some { w with
      k := (w.k.setMmu mmu).setPipes pipes, kbdWait := kbdWait, owner := owner, sigs := sigs }

/-- When an operation can happen. Between the choice of a task and the switch to it there are only
interrupts; `destroy` is for tasks that do not run; a call leaves the life of a task alone. -/
def Allowed (w : Machine H) : Op H → Prop
  | .tick .. => True
  | .preempt _ => True
  | .key => True
  | .switch => True
  | .destroy i => w.pending = none ∧ i ≠ w.k.current
  | .becomeFirst => w.pending = none ∧ w.k.current = 0
  | .work t => w.pending = none ∧ Kernel.SameLife (w.k.tasks w.k.current) t
  | _ => w.pending = none

instance (w : Machine H) : (op : Op H) → Decidable (w.Allowed op)
  | .tick .. | .preempt _ | .key | .switch => isTrue trivial
  | .destroy _ | .becomeFirst | .work _ => inferInstanceAs (Decidable (_ ∧ _))
  | .create _ | .arm _ | .fork _ | .block | .unblock _ | .resumeAfterExec | .reap | .pick
  | .kill .. | .fault _ | .exit _ | .drain _ | .collect _ | .outside .. =>
    inferInstanceAs (Decidable (_ = _))

/-- The machine before the first process: `task::init` has made the boot task. -/
def boot (m : Mmu H) (kstack : ℕ) (kernCode : UInt32) : Machine H where
  k := {
    mmu := m
    pipes := fun _ => ⟨0, 0, none, none, false⟩
    tasks := Function.update (fun _ => Task.zero) 0 { Task.zero with
      state := .running
      pid := 1
      sp := m.boot
      kstack := kstack
      regs := { Registers.zero with cs := kernCode }
      quantum := kQuantum
      armed := true
      name := [0x69, 0x6E, 0x69, 0x74]
      cwd := [0x2F] }
    current := 0 }
  ticks := 0
  kbdWait := []
  owner := 0
  sigs := true
  pending := none

/-- The machines that operations lead to. -/
inductive Reachable (w₀ : Machine H) : Machine H → Prop where
  | refl : Reachable w₀ w₀
  | step {w w' : Machine H} {op : Op H} (hr : Reachable w₀ w) (ha : w.Allowed op)
      (hst : w.step op = some w') : Reachable w₀ w'

/-- The machine after `t` operations of a list; a panic would leave it where it is. -/
def follow (w : Machine H) (ops : List (Op H)) : ℕ → Machine H
  | 0 => w
  | t + 1 => ((ops[t]?).bind (w.follow ops t).step).getD (w.follow ops t)

theorem follow_succ {w : Machine H} {ops : List (Op H)} {t : ℕ} {op : Op H}
    (hop : op ∈ ops[t]?) (hs : ((w.follow ops t).step op).isSome) :
    (w.follow ops t).step op = some (w.follow ops (t + 1)) := by
  rw [follow, Option.mem_def.mp hop, Option.bind_some, ← Option.get_eq_getD _ (h := hs),
    Option.some_get]

theorem reachable_follow {w : Machine H} {ops : List (Op H)} {n : ℕ}
    (h : ∀ t < n, ∃ op ∈ ops[t]?, (w.follow ops t).Allowed op ∧
      ((w.follow ops t).step op).isSome) :
    Reachable w (w.follow ops n) := by
  induction n with
  | zero => exact .refl
  | succ n ih =>
    obtain ⟨op, hop, ha, hs⟩ := h n n.lt_succ_self
    exact (ih fun t ht => h t (by omega)).step ha (follow_succ hop hs)

end Machine

end Aurisys
