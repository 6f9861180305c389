import Aurisys.Kernel.Signal

/-!
# The way back to ring 3

Which ring `iret` goes back to is in the selectors of the register frame. The processor fills them
in when a process traps, and no call touches them but one: `sigreturn` loads them from the frame
that a handler was started with. That frame is in user memory, and where it is taken from is in a
user register, so what is loaded is what the process wants to have there.

## Main definitions

* `UserFrame` — both selectors are of ring 3
* `GoesBack` — what `sigreturn` is going to load is a frame of ring 3
* `UserStep` — what a process and the kernel do, with a condition on the calls of `sigreturn`

## Main results

* `sigreturn_userFrame_iff` — a call of `sigreturn` goes back to ring 3 if and only if this is so
* `user_mode_iff` — and then the process never leaves it
-/

namespace Aurisys

open Bytes

namespace Signal

/-- The selectors of code and stack have the privilege level 3. -/
def UserFrame (r : Registers) : Prop := r.cs &&& 3 = 3 ∧ r.userSs &&& 3 = 3

/-- The same in user mode. -/
def UserCpu (c : Cpu) : Prop := c.cs &&& 3 = 3 ∧ c.ss &&& 3 = 3

/-- `sigreturn` loads the registers: a handler is active. -/
def Reloads (x : Ctx) : Prop := x.task.sigActive ≠ 0 ∧ x.task.sigActive.toNat < kSigMax

instance (x : Ctx) : Decidable (Reloads x) := inferInstanceAs (Decidable (_ ∧ _))

/-- The frame to go back with is one of ring 3: the one in user memory where it is loaded, the one
of the call where it is not. Where there is no room for a frame in front of the stack pointer the
process ends. -/
def GoesBack (x : Ctx) : Prop :=
  if Reloads x then 4 ≤ x.regs.userEsp.toNat →
    ld x.mem (x.regs.userEsp.toNat - 4 + 56) &&& 3 = 3 ∧
      ld x.mem (x.regs.userEsp.toNat - 4 + 68) &&& 3 = 3
  else UserFrame x.regs

/-- The frame `load_into` makes up for a new image. -/
def entryFrame (entry esp : UInt32) : Registers :=
  { Registers.zero with
    eip := entry, cs := 0x1B, eflags := 0x202, userEsp := esp, userSs := 0x23, espDummy := esp }

/-- What happens to a process. User code runs, and cannot load a selector of another ring; a call or
an interrupt does what it does to the table entry and to memory, and a signal may be delivered on
the way back; `execve` begins anew. A call of `sigreturn` meets the condition. -/
inductive UserStep (ok : Ctx → Prop) : Proc → Proc → Prop where
  | run (p : Proc) (cpu : Cpu) (mem : Bytes) (hcs : cpu.cs = p.cpu.cs) (hss : cpu.ss = p.cpu.ss) :
      UserStep ok p ⟨p.task, cpu, mem⟩
  | interrupt (p : Proc) (vec kesp : UInt32) (t : Task) (mem : Bytes) :
      UserStep ok p (deliverPending ⟨t, trap vec kesp p.cpu, mem⟩).toProc
  | call (p : Proc) (kesp out : UInt32) (t : Task) (mem : Bytes) :
      UserStep ok p (syscallReturn out ⟨t, trap 0x80 kesp p.cpu, mem⟩).toProc
  | execve (p : Proc) (entry esp : UInt32) (t : Task) (mem : Bytes) :
      UserStep ok p ⟨t, iret (entryFrame entry esp), mem⟩
  | sigreturn (p : Proc) (kesp : UInt32) (y : Ctx)
      (hy : Signal.sigreturn ((⟨p.task, trap 0x80 kesp p.cpu, p.mem⟩ : Ctx).setInSyscall true) =
        some y)
      (hok : ok ((⟨p.task, trap 0x80 kesp p.cpu, p.mem⟩ : Ctx).setInSyscall true)) :
      UserStep ok p (syscallReturn 0 y).toProc

variable {x y : Ctx} {p q : Proc} {sig : UInt32}

/-! ## One call -/

/-- A delivery leaves the selectors alone. -/
theorem deliver_selectors (h : deliver x sig = some y) :
    y.regs.cs = x.regs.cs ∧ y.regs.userSs = x.regs.userSs := by
  rw [deliver] at h
  split at h
  · dsimp only at h
    split at h
    · simp at h
    · split at h
      · simp at h
      · split at h
        · simp at h
        · rw [← Option.some.inj h]
          exact ⟨rfl, rfl⟩
  · simp at h

theorem userFrame_deliver (x : Ctx) (sig : UInt32) :
    UserFrame ((deliver x sig).getD x).regs ↔ UserFrame x.regs := by
  cases h : deliver x sig with
  | none => exact Iff.rfl
  | some y =>
    rw [Option.getD_some, UserFrame, UserFrame, (deliver_selectors h).1, (deliver_selectors h).2]

theorem userFrame_deliverPending (x : Ctx) : UserFrame (deliverPending x).regs ↔
    UserFrame x.regs := by
  rw [deliverPending]
  split
  · exact Iff.rfl
  · dsimp only
    split
    · split
      · exact userFrame_deliver (x.setPending 0) x.task.sigPending
      · exact Iff.rfl
    · exact Iff.rfl

theorem userFrame_syscallReturn (out : UInt32) (x : Ctx) :
    UserFrame (syscallReturn out x).regs ↔ UserFrame x.regs := userFrame_deliverPending x

/-- **A call of `sigreturn`** leaves a frame of ring 3 if and only if it takes one. -/
theorem sigreturn_userFrame_iff (x : Ctx) :
    (∀ y, sigreturn x = some y → UserFrame y.regs) ↔ GoesBack x := by
  rw [sigreturn, GoesBack]
  by_cases hr : Reloads x
  · have hactive : ¬(x.task.sigActive = 0 ∨ kSigMax ≤ x.task.sigActive.toNat) :=
      not_or.mpr ⟨hr.1, by have := hr.2; omega⟩
    rw [if_neg hactive, if_pos hr]
    by_cases hesp : x.regs.userEsp.toNat < 4
    · rw [if_pos hesp]
      exact ⟨fun _ h => by omega, fun _ y hy => by simp at hy⟩
    · rw [if_neg hesp]
      have hpop : UserFrame x.pop.regs ↔
          ld x.mem (x.regs.userEsp.toNat - 4 + 56) &&& 3 = 3 ∧
            ld x.mem (x.regs.userEsp.toNat - 4 + 68) &&& 3 = 3 := Iff.rfl
      dsimp only
      split
      · constructor
        · exact fun h _ => hpop.mp ((userFrame_deliver _ _).mp (h _ rfl))
        · intro h y hy
          rw [← Option.some.inj hy, userFrame_deliver]
          exact hpop.mpr (h (by omega))
      · constructor
        · exact fun h _ => hpop.mp (h _ rfl)
        · intro h y hy
          rw [← Option.some.inj hy]
          exact hpop.mpr (h (by omega))
  · have hactive : x.task.sigActive = 0 ∨ kSigMax ≤ x.task.sigActive.toNat := by
      by_contra hn
      rw [not_or] at hn
      exact hr ⟨hn.1, by omega⟩
    rw [if_pos hactive, if_neg hr]
    exact ⟨fun h => h x rfl, fun h y hy => Option.some.inj hy ▸ h⟩

/-! ## Runs -/

/-- **One step** stays in ring 3 when what `sigreturn` loads does. -/
theorem UserStep.userCpu (h : UserStep GoesBack p q) (hp : UserCpu p.cpu) : UserCpu q.cpu := by
  cases h with
  | run cpu mem hcs hss => exact ⟨hcs.symm ▸ hp.1, hss.symm ▸ hp.2⟩
  | interrupt vec kesp t mem =>
    exact (userFrame_deliverPending ⟨t, trap vec kesp p.cpu, mem⟩).mpr hp
  | call kesp out t mem =>
    exact (userFrame_syscallReturn out ⟨t, trap 0x80 kesp p.cpu, mem⟩).mpr hp
  | execve entry esp t mem =>
    have hcs : (0x1B : UInt32) &&& 3 = 3 := by decide
    have hss : (0x23 : UInt32) &&& 3 = 3 := by decide
    exact ⟨hcs, hss⟩
  | sigreturn kesp y hy hok =>
    exact (userFrame_syscallReturn 0 y).mpr ((sigreturn_userFrame_iff _).mpr hok y hy)

/-- **Who stays in user mode**: a call of `sigreturn` goes back to ring 3 if and only if the frame
that it takes is one of ring 3, and a process all of whose calls are like this never runs in
another. -/
theorem user_mode_iff (x : Ctx) :
    ((∀ y, sigreturn x = some y → UserFrame y.regs) ↔ GoesBack x) ∧
      ∀ p q : Proc, Relation.ReflTransGen (UserStep GoesBack) p q →
      UserCpu p.cpu → UserCpu q.cpu := by
  refine ⟨sigreturn_userFrame_iff x, fun p q h hp => ?_⟩
  induction h with
  | refl => exact hp
  | tail _ hstep ih => exact hstep.userCpu ih

/-- A process in a handler for signal 10. -/
def handling : Ctx where
  task := { Task.zero with sigActive := 10 }
  regs := { Registers.zero with
    eax := SYS_sigreturn, cs := 0x1B, userEsp := 0x4010F000, userSs := 0x23 }
  mem := fun _ => 0

theorem user_mode_iff_handling :
    ((∀ y, sigreturn handling = some y → UserFrame y.regs) ↔ GoesBack handling) ∧
      UserCpu (iret handling.regs) :=
  ⟨(user_mode_iff handling).1, (user_mode_iff handling).2 handling.toProc
    handling.toProc .refl ⟨rfl, rfl⟩⟩

/-- With zeroes on the stack, the process goes on in ring 0. -/
theorem handling_escapes : UserFrame handling.regs ∧
    ∃ y, sigreturn handling = some y ∧ y.regs.cs &&& 3 = 0 ∧ ¬UserFrame y.regs := by
  refine ⟨⟨rfl, rfl⟩, handling.pop, rfl, rfl, fun h => ?_⟩
  exact absurd h.1 (by decide)

end Signal

end Aurisys
