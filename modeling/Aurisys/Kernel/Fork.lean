import Aurisys.Kernel.Process
import Aurisys.Kernel.Spaces
import Aurisys.Kernel.Signal

/-!
# What `fork` returns

The parent of a new process gets its number in `eax`, and the new process gets `0` through the
frame it is started with. But `fork_user` also answers `0` when it makes no process, and a process
that asks `fork() == 0` takes that for being the child. So the answer identifies the child exactly
as long as nothing is short, and as long as no handler runs on the way out of the call, after which
`eax` is zero whatever the call returned.

## Main definitions

* `ForkRoom` — a free slot, and a heap that meets the requests of a fork
* `ForkSpec` — what `forkUser` can come to
* `Returns` — the processes that come out of the call, and their `eax`

## Main results

* `forkUser_spec`, `forkUser_ne_zero_iff`
* `fork_identifies_child_iff`
-/

namespace Aurisys

open Paging Pages PageAlloc

namespace Kernel

open Mmu Signal

variable {H : Type} [PageAlloc H] {k : Kernel H} {frame : Registers} {mem : Bytes}
  {other : Ctx → Option (UInt32 × Ctx)}

/-- The address space of the process that runs. -/
abbrev space (k : Kernel H) : ℕ := (k.tasks k.current).sp

/-- The heap after the requests of a fork for single pages. -/
def forkHeap (k : Kernel H) : H :=
  takePages (leaveHeap k.mmu k.space (takePages k.mmu.heap 7)) (groupNeed k.mmu k.space)

/-- There is a slot and memory for a child: seven pages for its space, one for a group if the
parent has none to share its tables in, and, once the tables of the child are given back, five in
a row for its kernel stack. -/
structure ForkRoom (k : Kernel H) : Prop where
  /-- There is a slot, -/
  slot : ∃ i, i ≠ 0 ∧ (k.tasks i).state = .free
  /-- there are pages for a space, -/
  space : HasPages k.mmu.heap 7
  /-- one for a group, where there is none, -/
  group : HasPages (leaveHeap k.mmu k.space (takePages k.mmu.heap 7)) (groupNeed k.mmu k.space)
  /-- and five in a row for the stack. -/
  stack : (allocN (free (free k.forkHeap (pageAt k.mmu.heap 5)) (pageAt k.mmu.heap 6)) 5).1 ≠ 0

/-- A process runs, in user mode until it trapped with `frame`. -/
structure Caller (k : Kernel H) (frame : Registers) : Prop where
  /-- The caller is in use. -/
  state : (k.tasks k.current).state ≠ .free
  /-- It was in user mode. -/
  user : frame.fromUser = true
  /-- Its space is out, -/
  live : (live k.mmu.heap k.space).isSome
  /-- and has tables. -/
  tables : ∀ h, (k.mmu.spaces k.space).pt h ≠ 0

theorem Caller.space_ne_zero (h : Caller k frame) : k.space ≠ 0 := by
  intro h0
  have := h.live
  rw [h0, live_zero] at this
  cases this

/-- Sharing with the space just made: the parent and its group are as they were before. -/
theorem Caller.share (hc : Caller k frame) (h : HasPages k.mmu.heap 7) {sp : ℕ} {m : Mmu H}
    (he : k.mmu.spaceCreate = (sp, m)) :
    sp ≠ 0 ∧ ((m.spaceShareUser sp k.space).1 = true ↔
          HasPages (leaveHeap k.mmu k.space (takePages k.mmu.heap 7)) (groupNeed k.mmu k.space)) ∧
        ((m.spaceShareUser sp k.space).1 = true → (m.spaceShareUser sp k.space).2.heap =
          free (free k.forkHeap (pageAt k.mmu.heap 5)) (pageAt k.mmu.heap 6)) := by
  have hne : pageAt k.mmu.heap 0 ≠ k.space := (h.ne_of_live hc.live).2 0 (by decide)
  have hsp : pageAt k.mmu.heap 0 ≠ 0 := h.1
  rw [spaceCreate_of_hasPages h] at he
  obtain ⟨rfl, rfl⟩ := Prod.mk.inj he
  set s : Space := ⟨![pageAt k.mmu.heap 1, pageAt k.mmu.heap 2, pageAt k.mmu.heap 3,
    pageAt k.mmu.heap 4], pageAt k.mmu.heap 5, pageAt k.mmu.heap 6, pageAt k.mmu.heap 5,
    pageAt k.mmu.heap 6, 1, 0⟩ with hs
  set m := (((k.mmu.setHeap (takePages k.mmu.heap 7)).setTable (pageAt k.mmu.heap 5) .zero).setTable
      (pageAt k.mmu.heap 6) .zero).setSpace (pageAt k.mmu.heap 0) s with hm
  have hparent : m.spaces k.space = k.mmu.spaces k.space := Function.update_of_ne hne.symm _ _
  have hgroups : m.groups = k.mmu.groups := rfl
  have hheap : m.heap = takePages k.mmu.heap 7 := rfl
  have hchild : m.spaces (pageAt k.mmu.heap 0) = s := Function.update_self _ _ _
  have := spaceShareUser_spec hsp hc.space_ne_zero hne (fun h => hparent ▸ hc.tables h)
  rw [leaveHeap_congr hparent hgroups, groupNeed_congr hparent hgroups, hheap, hchild] at this
  exact ⟨hsp, this⟩

/-- **When a process is made.** -/
theorem forkUser_ne_zero_iff (hc : Caller k frame) : (k.forkUser frame).1 ≠ 0 ↔ ForkRoom k := by
  have hnot : ∀ {sp : ℕ} {m : Mmu H}, k.mmu.spaceCreate = (sp, m) → sp ≠ 0 →
      HasPages k.mmu.heap 7 := by
    intro sp m he hsp
    by_contra h
    have := spaceCreate_of_not_hasPages h
    rw [he] at this
    exact hsp this
  have hspec := k.forkUser_spec frame
  generalize k.forkUser frame = r at hspec ⊢
  cases hspec with
  | refused h =>
    refine iff_of_false (fun h => h rfl) fun hr => ?_
    obtain ⟨i, hi, hfree⟩ := hr.slot
    rcases h with h | h | h
    · exact hc.space_ne_zero h
    · rw [hc.user] at h
      cases h
    · exact freeSlot_eq_none.mp h i hi hfree
  | noSpace hslot hspace =>
    refine iff_of_false (fun h => h rfl) fun hr => ?_
    exact (hc.share hr.space hspace).1 rfl
  | noShare hslot hspace hsp hshare =>
    refine iff_of_false (fun h => h rfl) fun hr => ?_
    have := (hc.share hr.space hspace).2.1.mpr hr.group
    rw [hshare] at this
    cases this
  | noStack hslot hspace hsp hshare hstack =>
    refine iff_of_false (fun h => h rfl) fun hr => ?_
    have hheap := (hc.share hr.space hspace).2.2
    rw [hshare] at hheap
    apply hr.stack
    rw [← hheap rfl]
    exact congrArg Prod.fst hstack
  | @forked slot sp kstack m m' m'' hslot hspace hsp hshare hstack hk =>
    refine iff_of_true (Nat.succ_ne_zero _) ?_
    obtain ⟨-, hgroup, hheap⟩ := hc.share (hnot hspace hsp) hspace
    rw [hshare] at hgroup hheap
    refine ⟨⟨slot, freeSlot_eq_some hslot⟩, hnot hspace hsp, hgroup.mp rfl, ?_⟩
    rw [← hheap rfl]
    have := congrArg Prod.fst hstack
    exact fun h0 => hk (this.symm.trans h0)

/-- Whoever was there before the call is as before, but for notes that were purged. -/
theorem forkUser_tasks {i : Fin kMaxTask} (hi : (k.tasks i).state ≠ .free) :
    ∃ d, (k.forkUser frame).2.tasks i = { k.tasks i with done := d } := by
  have hspec := k.forkUser_spec frame
  generalize k.forkUser frame = r at hspec ⊢
  have hne : ∀ {slot : Fin kMaxTask}, k.freeSlot = some slot → i ≠ slot := by
    rintro slot hslot rfl
    exact hi (freeSlot_eq_some hslot).2
  cases hspec with
  | refused => exact ⟨_, rfl⟩
  | noSpace hslot => exact ⟨_, Function.update_of_ne (hne hslot) _ _⟩
  | noShare hslot => exact ⟨_, Function.update_of_ne (hne hslot) _ _⟩
  | noStack hslot => exact ⟨_, Function.update_of_ne (hne hslot) _ _⟩
  | forked hslot => exact ⟨_, Function.update_of_ne (hne hslot) _ _⟩

theorem forkUser_current : (k.forkUser frame).2.current = k.current := by
  have hspec := k.forkUser_spec frame
  generalize k.forkUser frame = r at hspec ⊢
  cases hspec <;> rfl

/-! ## The call -/

/-- The call `SYS_fork` in `syscall_dispatch`. -/
def sysFork (k : Kernel H) (frame : Registers) : ℕ × Kernel H :=
  (k.setTask k.current { k.tasks k.current with inSyscall := true }).forkUser frame

/-- The caller at the tail of `syscall_dispatch`; `mem` is what it sees of memory. -/
def callerCtx (k : Kernel H) (frame : Registers) (mem : Bytes) : Ctx :=
  ⟨k.tasks k.current, frame, mem⟩

/-- The result that the call leaves in `eax`. -/
def forkOut (k : Kernel H) (frame : Registers) : UInt32 := UInt32.ofNat (k.sysFork frame).1

/-- The process in slot `i` is one that the call made. -/
def Created (k : Kernel H) (frame : Registers) (i : Fin kMaxTask) : Prop :=
  (k.tasks i).state = .free ∧ ((k.sysFork frame).2.tasks i).state ≠ .free

/-- The processes that come out of the call `SYS_fork`, with what they find in `eax`: the caller at
once or after a handler that runs on its way out, and the child with the frame it is started
with. -/
inductive Returns (other : Ctx → Option (UInt32 × Ctx)) (k : Kernel H) (frame : Registers)
    (mem : Bytes) : Fin kMaxTask → UInt32 → Prop where
  | plain (h : ¬Deliverable ((k.sysFork frame).2.callerCtx frame mem)) :
      Returns other k frame mem k.current
        (syscallReturn (k.forkOut frame) ((k.sysFork frame).2.callerCtx frame mem)).toProc.cpu.eax
  | handled {p : Proc} (h : Deliverable ((k.sysFork frame).2.callerCtx frame mem))
      (hp : Resumes other ((Origin.syscall (k.forkOut frame)).enter
        ((k.sysFork frame).2.callerCtx frame mem)) p) :
      Returns other k frame mem k.current p.cpu.eax
  | child {i : Fin kMaxTask} (h : Created k frame i) :
      Returns other k frame mem i ((k.sysFork frame).2.tasks i).regs.eax

/-- Zero comes out of `fork` in the new process only, and a fork that makes no process does not
return zero. -/
def ForkIdentifies (other : Ctx → Option (UInt32 × Ctx)) (k : Kernel H) (frame : Registers)
    (mem : Bytes) : Prop :=
  (∀ i v, Returns other k frame mem i v → v = 0 → Created k frame i) ∧
    ((∀ i, ¬Created k frame i) → k.forkOut frame ≠ 0)

theorem deliverable_congr {x y : Ctx} (hr : x.regs = y.regs)
    (ha : x.task.sigActive = y.task.sigActive) (hp : x.task.sigPending = y.task.sigPending)
    (hh : x.task.sigHandlers = y.task.sigHandlers) (hm : x.task.sigMask = y.task.sigMask)
    (h : Deliverable x) : Deliverable y := by
  obtain ⟨h1, h2, h3, h4, h5, h6⟩ := h
  refine ⟨ha ▸ h1, hp ▸ h2, hp ▸ h3, ?_, ?_, hr ▸ h6⟩
  · simp only [hp, hh] at h4
    exact h4
  · rw [← hm, ← hp]
    exact h5

/-- The call changes nothing that decides whether a signal is delivered on the way out. -/
theorem deliverable_sysFork (frame : Registers) (mem : Bytes)
    (hs : (k.tasks k.current).state ≠ .free) :
    Deliverable ((k.sysFork frame).2.callerCtx frame mem) ↔
    Deliverable (k.callerCtx frame mem) := by
  set k₁ := k.setTask k.current { k.tasks k.current with inSyscall := true } with hk₁
  have htask : k₁.tasks k.current = { k.tasks k.current with inSyscall := true } :=
    Function.update_self _ _ _
  have hcur : (k.sysFork frame).2.current = k.current := forkUser_current
  obtain ⟨d, hd⟩ : ∃ d, (k.sysFork frame).2.tasks k.current =
    { k₁.tasks k.current with done := d } :=
    forkUser_tasks (by rw [htask]; exact hs)
  have : (k.sysFork frame).2.callerCtx frame mem
      = ⟨{ k.tasks k.current with inSyscall := true, done := d }, frame, mem⟩ := by
    rw [callerCtx, hcur, hd, htask]
  rw [this]
  constructor
  · exact deliverable_congr rfl rfl rfl rfl rfl
  · exact deliverable_congr rfl rfl rfl rfl rfl

/-- Marking the caller as inside a call changes nothing that the call depends on. -/
theorem sysFork_ne_zero_iff (hc : Caller k frame) : (k.sysFork frame).1 ≠ 0 ↔ ForkRoom k := by
  have hstate : ∀ i, ((k.setTask k.current
      { k.tasks k.current with inSyscall := true }).tasks i).state = (k.tasks i).state := by
    intro i
    by_cases hi : i = k.current
    · subst hi
      rw [setTask_tasks, Function.update_self]
    · rw [setTask_tasks, Function.update_of_ne hi]
  have hspace : (k.setTask k.current { k.tasks k.current with inSyscall := true }).space
      = k.space := by
    rw [space, setTask_tasks, setTask_current, Function.update_self]
  have hheap : (k.setTask k.current { k.tasks k.current with inSyscall := true }).forkHeap
      = k.forkHeap := by
    rw [forkHeap, hspace]
    rfl
  rw [sysFork, forkUser_ne_zero_iff]
  · constructor
    · rintro ⟨⟨i, hi, hfree⟩, h7, hg, hs⟩
      rw [hspace] at hg
      rw [hheap] at hs
      exact ⟨⟨i, hi, hstate i ▸ hfree⟩, h7, hg, hs⟩
    · rintro ⟨⟨i, hi, hfree⟩, h7, hg, hs⟩
      refine ⟨⟨i, hi, (hstate i).symm ▸ hfree⟩, h7, ?_, ?_⟩
      · rw [hspace]
        exact hg
      · rw [hheap]
        exact hs
  · refine ⟨?_, hc.user, ?_, ?_⟩
    · rw [setTask_current, hstate]
      exact hc.state
    · rw [hspace]
      exact hc.live
    · rw [hspace]
      exact hc.tables

theorem forkUser_lt : (k.forkUser frame).1 ≤ kMaxTask := by
  have hspec := k.forkUser_spec frame
  generalize k.forkUser frame = r at hspec ⊢
  cases hspec with
  | @forked slot => exact slot.isLt
  | _ => exact Nat.zero_le _

theorem forkOut_eq_zero : k.forkOut frame = 0 ↔ (k.sysFork frame).1 = 0 := by
  have hlt : (k.sysFork frame).1 < 2 ^ 32 := lt_of_le_of_lt forkUser_lt (by decide)
  rw [forkOut, ← UInt32.toNat_inj, UInt32.toNat_ofNat', Nat.mod_eq_of_lt hlt]
  rfl

/-- **What `fork` tells its caller.** The zero in `eax` identifies the child if and only if the fork
finds a slot and its memory, and no signal is handled on the way out of the call. -/
theorem fork_identifies_child_iff (hc : Caller k frame) :
    ForkIdentifies other k frame mem ↔ ForkRoom k ∧ ¬Deliverable (k.callerCtx frame mem) := by
  have hrun : ¬Created k frame k.current := fun h => hc.state h.1
  rw [← deliverable_sysFork frame mem hc.state]
  constructor
  · rintro ⟨hid, -⟩
    have hnd : ¬Deliverable ((k.sysFork frame).2.callerCtx frame mem) := by
      intro hd
      have hint := hd.enter (.syscall (k.forkOut frame))
      obtain ⟨p, hp⟩ := hint.exists_resumes other
      have h0 : p.cpu.eax = 0 := by rw [(hint.resumes hp).cpu]
      exact hrun (hid _ _ (.handled hd hp) h0)
    refine ⟨(sysFork_ne_zero_iff hc).mp fun h0 => ?_, hnd⟩
    exact hrun (hid _ _ (.plain hnd) (forkOut_eq_zero.mpr h0))
  · rintro ⟨hroom, hnd⟩
    have hne : k.forkOut frame ≠ 0 := mt forkOut_eq_zero.mp ((sysFork_ne_zero_iff hc).mpr hroom)
    refine ⟨fun i v hret h0 => ?_, fun _ => hne⟩
    cases hret with
    | plain => exact absurd h0 hne
    | handled hd => exact absurd hd hnd
    | child h => exact h

/-! ## A table that is full -/

/-- One process in user mode, in a space of its own, and the other slots in one state. -/
def oneProcess (others : TaskState) : Kernel Bump where
  mmu := bare.spaceCreate.2
  pipes _ := ⟨0, 0, none, none, false⟩
  tasks i := if i = 0 then { Task.zero with pid := 1, state := .running, sp := 4096, armed := true }
    else { Task.zero with pid := i + 1, state := others, ppid := 1 }
  current := 0

/-- The frame of a call made in user mode. -/
def userFrame : Registers := { Registers.zero with eax := 19, eip := 0x40000100, cs := 0x1B }

theorem caller_oneProcess (s : TaskState) : Caller (oneProcess s) userFrame :=
  have hlive : (live bare.spaceCreate.2.heap 4096).isSome = true := by decide +kernel
  have htables : ∀ h, (bare.spaceCreate.2.spaces 4096).pt h ≠ 0
    | .code | .heap => by decide +kernel
  ⟨by simp [oneProcess], rfl, hlive, htables⟩

theorem not_deliverable_oneProcess (s : TaskState) (mem : Bytes) :
    ¬Deliverable ((oneProcess s).callerCtx userFrame mem) := fun h => h.pending rfl

theorem fork_identifies_child_oneProcess :
    ForkIdentifies (fun _ => none) (oneProcess .free) userFrame fun _ => 0 :=
  (fork_identifies_child_iff (caller_oneProcess .free)).mpr
    ⟨⟨⟨1, by decide, rfl⟩, by decide +kernel, by decide +kernel, by decide +kernel⟩,
      not_deliverable_oneProcess _ _⟩

/-- With every slot in use the caller gets the zero of a child, and there is no child. -/
theorem fork_zero_without_child :
    Caller (oneProcess .ready) userFrame ∧
      (∀ i, ¬Created (oneProcess .ready) userFrame i) ∧
      (oneProcess .ready).forkOut userFrame = 0 ∧
      ¬ForkIdentifies (fun _ => none) (oneProcess .ready) userFrame fun _ => 0 := by
  have hcreated : ∀ i, ¬Created (oneProcess .ready) userFrame i := by
    rintro i ⟨hi, -⟩
    revert i
    decide
  have hout : (oneProcess .ready).forkOut userFrame = 0 := by
    refine forkOut_eq_zero.mpr (by_contra fun h => ?_)
    obtain ⟨i, -, hi⟩ := ((sysFork_ne_zero_iff (caller_oneProcess .ready)).mp h).slot
    revert i
    decide
  exact ⟨caller_oneProcess .ready, hcreated, hout, fun h => h.2 hcreated hout⟩

end Kernel

end Aurisys
