import Aurisys.Kernel.Task
import Aurisys.Lib.Bytes
import Mathlib.Logic.Relation

/-!
# Signals: delivery, the handler, and the way back

`deliver` pushes a frame on the user stack that holds the interrupted registers and a three
instruction trampoline, and points the process at its handler. When the handler returns it returns
into the trampoline, which makes the call `SYS_sigreturn`; `sigreturn` loads the registers from the
frame again.

## What a handler can do

A handler is any user code, so a run of it is any sequence of user steps, calls and interrupts. What
the kernel does meanwhile is fixed: it can raise another signal, change an action, or pass through
the tail of a call, where nothing is delivered while a handler is active. A handler *returns* when
it comes to a `ret` with the stack pointer it was started with and its frame unedited.

## Main results

* `HandlerStep.kept` — the mask to put back survives the handler
* `Interrupted.resumes` — where the process is after the last `sigreturn`
* `signal_transparent_iff` — the process resumes as if nothing had happened just when the result
  it is owed is zero
-/

namespace Aurisys

open Bytes

namespace Signal

/-! ## The processor in user mode -/

/-- What user code sees of the processor. -/
structure Cpu where
  eax : UInt32
  ebx : UInt32
  ecx : UInt32
  edx : UInt32
  esi : UInt32
  edi : UInt32
  ebp : UInt32
  esp : UInt32
  eip : UInt32
  eflags : UInt32
  cs : UInt32
  ss : UInt32
deriving DecidableEq

/-- `popad` and `iret`: the stub's way back to ring 3. -/
def iret (r : Registers) : Cpu where
  eax := r.eax
  ebx := r.ebx
  ecx := r.ecx
  edx := r.edx
  esi := r.esi
  edi := r.edi
  ebp := r.ebp
  esp := r.userEsp
  eip := r.eip
  eflags := r.eflags
  cs := r.cs
  ss := r.userSs

/-- A trap from ring 3. The slot `pushad` fills for `esp` holds the kernel's own stack pointer. -/
def trap (vec kesp : UInt32) (c : Cpu) : Registers where
  edi := c.edi
  esi := c.esi
  ebp := c.ebp
  espDummy := kesp
  ebx := c.ebx
  edx := c.edx
  ecx := c.ecx
  eax := c.eax
  intNo := vec
  errCode := 0
  eip := c.eip
  cs := c.cs
  eflags := c.eflags
  userEsp := c.esp
  userSs := c.ss

/-- The word of user memory at an address. -/
def ld (m : Bytes) (p : ℕ) : UInt32 := UInt32.ofNat (r32 m p)

def st (m : Bytes) (p : ℕ) (v : UInt32) : Bytes := w32 m p v.toNat

theorem ld_congr {m m' : Bytes} {p : ℕ} (h : ∀ i < 4, m' (p + i) = m (p + i)) :
    ld m' p = ld m p := by
  rw [ld, ld, r32_congr h]

@[simp] theorem ld_st_self (m : Bytes) (p : ℕ) (v : UInt32) : ld (st m p v) p = v := by
  rw [ld, st, r32_w32_self, Nat.mod_eq_of_lt v.toNat_lt, UInt32.ofNat_toNat]

theorem ld_st_of_disjoint {m : Bytes} {p q : ℕ} {v : UInt32} (h : q + 4 ≤ p ∨ p + 4 ≤ q) :
    ld (st m p v) q = ld m q := by
  rw [ld, ld, st, r32_w32_of_disjoint h]

/-- The instructions the way back is made of. -/
inductive Instr where
  | ret
  | movEax (v : UInt32)
  | int80
  | other
deriving DecidableEq

/-- Decode the instruction at `p`. -/
def fetch (m : Bytes) (p : ℕ) : Instr :=
  if m p = 0xC3 then .ret
  else if m p = 0xB8 then .movEax (ld m (p + 1))
  else if m p = 0xCD ∧ m (p + 1) = 0x80 then .int80
  else .other

/-- One of the two instructions that stay in user mode. -/
def Cpu.step (m : Bytes) (c : Cpu) : Option Cpu :=
  match fetch m c.eip.toNat with
  | .ret => some { c with eip := ld m c.esp.toNat, esp := c.esp + 4 }
  | .movEax v => some { c with eax := v, eip := c.eip + 5 }
  | _ => none

/-- `int 0x80`, as the gate sees it. -/
def Cpu.int80 (kesp : UInt32) (m : Bytes) (c : Cpu) : Option Registers :=
  match fetch m c.eip.toNat with
  | .int80 => some (trap 0x80 kesp { c with eip := c.eip + 2 })
  | _ => none

/-! ## The kernel's side -/

/-- A task inside the kernel, with its register frame and its user memory. -/
structure Ctx where
  task : Task
  regs : Registers
  mem : Bytes

/-- A task in user mode. -/
structure Proc where
  task : Task
  cpu : Cpu
  mem : Bytes

def Ctx.toProc (x : Ctx) : Proc := ⟨x.task, iret x.regs, x.mem⟩

def Ctx.setInSyscall (x : Ctx) (b : Bool) : Ctx := { x with task := { x.task with inSyscall := b } }

def Ctx.setPending (x : Ctx) (sig : UInt32) : Ctx :=
  { x with task := { x.task with sigPending := sig } }

def Ctx.setEax (x : Ctx) (v : UInt32) : Ctx := { x with regs := { x.regs with eax := v } }

/-- `sizeof(sigframe)`. -/
def sigframeBytes : ℕ := 92

def SYS_sigreturn : UInt32 := 29

/-- The nine bytes of the trampoline: `mov eax, SYS_sigreturn`, `int 0x80`, `ud2`. -/
def code : ℕ → UInt8
  | 0 => 0xB8
  | 1 => SYS_sigreturn.toUInt8
  | 2 => (SYS_sigreturn >>> 8).toUInt8
  | 3 => (SYS_sigreturn >>> 16).toUInt8
  | 4 => (SYS_sigreturn >>> 24).toUInt8
  | 5 => 0xCD
  | 6 => 0x80
  | 7 => 0x0F
  | _ => 0x0B

/-- The words of a `sigframe` at `fp`, in the order `deliver` stores them. -/
def pushSigframe (m : Bytes) (fp : ℕ) (r : Registers) (sig : UInt32) : Bytes :=
  let m := memset m fp 0 sigframeBytes
  let m := st m (fp + 12) r.edi
  let m := st m (fp + 16) r.esi
  let m := st m (fp + 20) r.ebp
  let m := st m (fp + 24) r.espDummy
  let m := st m (fp + 28) r.ebx
  let m := st m (fp + 32) r.edx
  let m := st m (fp + 36) r.ecx
  let m := st m (fp + 40) r.eax
  let m := st m (fp + 44) (0x80 ||| sig)
  let m := st m (fp + 48) 0
  let m := st m (fp + 52) r.eip
  let m := st m (fp + 56) r.cs
  let m := st m (fp + 60) r.eflags
  let m := st m (fp + 64) r.userEsp
  let m := st m (fp + 68) r.userSs
  let m := st m (fp + 72) sig
  let m := st m (fp + 76) (UInt32.ofNat fp)
  let m := st m fp (UInt32.ofNat (fp + 80))
  let m := st m (fp + 4) sig
  let m := st m (fp + 8) (UInt32.ofNat fp)
  memcpy m (fp + 80) code 0 9

/-- `deliver`: `none` when it returns false, and then nothing has changed. -/
def deliver (x : Ctx) (sig : UInt32) : Option Ctx :=
  if h : sig ≠ 0 ∧ sig.toNat < kSigMax then
    let handler := x.task.sigHandlers ⟨sig.toNat, h.2⟩
    if handler = 0 then none
    else if x.task.sigMask &&& (1 <<< sig) ≠ 0 then none
    else
      let sp := x.regs.userEsp &&& ~~~3
      if sp.toNat < sigframeBytes + 16 then none
      else
        let fp := sp.toNat - sigframeBytes
        some {
          task := { x.task with
            sigSavedMask := x.task.sigMask
            sigMask := x.task.sigMask ||| ((1 <<< sig) ||| x.task.sigMasks ⟨sig.toNat, h.2⟩)
            sigActive := sig }
          regs := { x.regs with
            eip := handler
            userEsp := UInt32.ofNat fp
            espDummy := UInt32.ofNat fp }
          mem := pushSigframe x.mem fp x.regs sig }
  else none

/-- The registers `sigreturn` loads from the frame at `f`. -/
def popSigframe (m : Bytes) (f : ℕ) (r : Registers) : Registers :=
  { r with
    edi := ld m (f + 12)
    esi := ld m (f + 16)
    ebp := ld m (f + 20)
    espDummy := ld m (f + 24)
    ebx := ld m (f + 28)
    edx := ld m (f + 32)
    ecx := ld m (f + 36)
    eax := ld m (f + 40)
    eip := ld m (f + 52)
    cs := ld m (f + 56)
    eflags := ld m (f + 60)
    userEsp := ld m (f + 64)
    userSs := ld m (f + 68) }

def Ctx.unmask (x : Ctx) : Ctx :=
  { x with task := { x.task with sigMask := x.task.sigSavedMask, sigActive := 0, sigPending := 0 } }

/-- The registers are loaded from the frame, the mask is back and no handler runs. -/
def Ctx.pop (x : Ctx) : Ctx :=
  { x with regs := popSigframe x.mem (x.regs.userEsp.toNat - 4) x.regs }.unmask

/-- `sigreturn`; `none` when the process exits instead of returning. -/
def sigreturn (x : Ctx) : Option Ctx :=
  if x.task.sigActive = 0 ∨ kSigMax ≤ x.task.sigActive.toNat then some x
  else if x.regs.userEsp.toNat < 4 then none
  else
    let next := x.task.sigPending
    if next ≠ 0 ∧ next.toNat < kSigMax then some ((deliver x.pop next).getD x.pop) else some x.pop

/-- `deliver_pending`. -/
def deliverPending (x : Ctx) : Ctx :=
  if x.task.sigPending = 0 ∨ x.task.sigActive ≠ 0 then x
  else
    let sig := x.task.sigPending
    let x := x.setPending 0
    if h : sig.toNat < kSigMax then
      if x.task.sigHandlers ⟨sig.toNat, h⟩ ≠ 0 then (deliver x sig).getD x else x
    else x

/-- The tail of `syscall_dispatch` and the stub after it: a pending signal is delivered, and the
result of the call goes to the `eax` slot of the frame. -/
def syscallReturn (out : UInt32) (x : Ctx) : Ctx :=
  ((deliverPending x).setInSyscall false).setEax out

/-- `syscall_dispatch`; the calls other than `SYS_sigreturn` are `other`. -/
def syscallDispatch (other : Ctx → Option (UInt32 × Ctx)) (x : Ctx) : Option Ctx :=
  let x := x.setInSyscall true
  let res := if x.regs.eax = SYS_sigreturn then (sigreturn x).map fun y => (0, y) else other x
  res.map fun y => syscallReturn y.1 y.2

/-! ## A run of the handler -/

/-- What can happen while a handler runs: user code computes, an action changes, a signal is raised,
and the kernel is entered and left. What a call does to other fields of the task is left out. -/
inductive HandlerStep : Proc → Proc → Prop where
  | user (p : Proc) (cpu : Cpu) (mem : Bytes) : HandlerStep p { p with cpu := cpu, mem := mem }
  | sigaction (p : Proc) (sig : Fin kSigMax) (handler mask : UInt32) :
      HandlerStep p { p with task := { p.task with
        sigHandlers := Function.update p.task.sigHandlers sig handler
        sigMasks := Function.update p.task.sigMasks sig mask } }
  | raised (p : Proc) (sig : UInt32) :
      HandlerStep p { p with task := { p.task with sigPending := sig } }
  | tick (p : Proc) (vec kesp : UInt32) :
      HandlerStep p (deliverPending ⟨p.task, trap vec kesp p.cpu, p.mem⟩).toProc
  | call (p : Proc) (kesp out : UInt32) :
      HandlerStep p (syscallReturn out ⟨p.task, trap 0x80 kesp p.cpu, p.mem⟩).toProc

/-- The handler started in `p` comes to its `ret` in `q`. -/
structure HandlerReturns (p q : Proc) : Prop where
  /-- Steps lead from the one to the other. -/
  runs : Relation.ReflTransGen HandlerStep p q
  /-- The stack pointer is back, -/
  esp : q.cpu.esp = p.cpu.esp
  /-- the frame above it is as it was, -/
  frame : ∀ i < sigframeBytes, q.mem (p.cpu.esp.toNat + i) = p.mem (p.cpu.esp.toNat + i)
  /-- and the next instruction is `ret`. -/
  ret : fetch q.mem q.cpu.eip.toNat = .ret

/-- The `ret` of the handler and the trampoline, up to the gate. -/
def trampoline (kesp : UInt32) (q : Proc) : Option Ctx :=
  (q.cpu.step q.mem).bind fun c => (c.step q.mem).bind fun c =>
    (c.int80 kesp q.mem).map fun r => ⟨q.task, r, q.mem⟩

/-- From the start of a handler to the process running on its own again, through the handlers of
the signals that `sigreturn` finds pending. -/
inductive Resumes (other : Ctx → Option (UInt32 × Ctx)) : Proc → Proc → Prop where
  | last {p q : Proc} {kesp : UInt32} {x y : Ctx} : HandlerReturns p q →
      trampoline kesp q = some x → syscallDispatch other x = some y → y.task.sigActive = 0 →
      Resumes other p y.toProc
  | again {p q p' : Proc} {kesp : UInt32} {x y : Ctx} : HandlerReturns p q →
      trampoline kesp q = some x → syscallDispatch other x = some y → y.task.sigActive ≠ 0 →
      Resumes other y.toProc p' → Resumes other p p'

/-- Where the frame was taken. -/
inductive Origin where
  /-- At the tail of a call with this result. -/
  | syscall (out : UInt32)
  /-- In `switch_to`, from the registers `preempt` saved. -/
  | preempt

/-- The process as it would run on without a signal. -/
def Origin.resume (r : Registers) : Origin → Cpu
  | .syscall out => iret { r with eax := out }
  | .preempt => iret r

/-- The process as it runs on after `deliver_pending`. -/
def Origin.enter (x : Ctx) : Origin → Proc
  | .syscall out => (syscallReturn out x).toProc
  | .preempt => (deliverPending x).toProc

/-- A signal is pending that has a handler, is not blocked and has room for its frame. -/
structure Deliverable (x : Ctx) : Prop where
  /-- No handler runs. -/
  idle : x.task.sigActive = 0
  /-- A signal is pending, -/
  pending : x.task.sigPending ≠ 0
  /-- with a number that there is a handler for, -/
  lt : x.task.sigPending.toNat < kSigMax
  /-- which has been set. -/
  handled : x.task.sigHandlers ⟨x.task.sigPending.toNat, lt⟩ ≠ 0
  /-- It is not blocked. -/
  unblocked : x.task.sigMask &&& (1 <<< x.task.sigPending) = 0
  /-- Its frame fits on the stack. -/
  room : sigframeBytes + 16 ≤ (x.regs.userEsp &&& ~~~3).toNat

/-! ## The frame -/

/-- The frame at `f` holds the registers `c` and a trampoline to return through. -/
structure Frame (m : Bytes) (f : ℕ) (c : Cpu) : Prop where
  edi : ld m (f + 12) = c.edi
  esi : ld m (f + 16) = c.esi
  ebp : ld m (f + 20) = c.ebp
  ebx : ld m (f + 28) = c.ebx
  edx : ld m (f + 32) = c.edx
  ecx : ld m (f + 36) = c.ecx
  eax : ld m (f + 40) = c.eax
  eip : ld m (f + 52) = c.eip
  cs : ld m (f + 56) = c.cs
  eflags : ld m (f + 60) = c.eflags
  esp : ld m (f + 64) = c.esp
  ss : ld m (f + 68) = c.ss
  ret : ld m f = UInt32.ofNat (f + 80)
  code : ∀ i < 9, m (f + 80 + i) = code i

theorem Frame.congr {m m' : Bytes} {f : ℕ} {c : Cpu} (h : Frame m f c)
    (hm : ∀ i < sigframeBytes, m' (f + i) = m (f + i)) : Frame m' f c := by
  have word : ∀ k, k + 4 ≤ sigframeBytes → ld m' (f + k) = ld m (f + k) := fun k hk =>
    ld_congr fun i hi => by
      rw [Nat.add_assoc]
      exact hm (k + i) (by omega)
  exact {
    edi := (word 12 (by decide)).trans h.edi
    esi := (word 16 (by decide)).trans h.esi
    ebp := (word 20 (by decide)).trans h.ebp
    ebx := (word 28 (by decide)).trans h.ebx
    edx := (word 32 (by decide)).trans h.edx
    ecx := (word 36 (by decide)).trans h.ecx
    eax := (word 40 (by decide)).trans h.eax
    eip := (word 52 (by decide)).trans h.eip
    cs := (word 56 (by decide)).trans h.cs
    eflags := (word 60 (by decide)).trans h.eflags
    esp := (word 64 (by decide)).trans h.esp
    ss := (word 68 (by decide)).trans h.ss
    ret := (word 0 (by decide)).trans h.ret
    code := fun i hi => by
      have := hm (80 + i) (by simp only [sigframeBytes]; omega)
      rw [Nat.add_assoc, this, ← Nat.add_assoc]
      exact h.code i hi }

theorem ld_memcpy_of_le {m src : Bytes} {p q n k : ℕ} (h : k + 4 ≤ p) :
    ld (memcpy m p src q n) k = ld m k :=
  ld_congr fun i hi => memcpy_of_lt_or_ge (by omega)

theorem frame_pushSigframe (m : Bytes) (f : ℕ) (r : Registers) (sig : UInt32) :
    Frame (pushSigframe m f r sig) f (iret r) := by
  constructor
  case code =>
    intro i hi
    rw [pushSigframe, memcpy_of_lt hi, Nat.zero_add]
  all_goals
    rw [pushSigframe, ld_memcpy_of_le (by omega)]
    simp (disch := omega) only [ld_st_of_disjoint, ld_st_self, iret]

/-- `sigreturn` loads what the frame holds. -/
theorem Frame.popSigframe {m : Bytes} {f : ℕ} {c : Cpu} (h : Frame m f c) (r : Registers) :
    iret (popSigframe m f r) = c := by
  simp only [iret, Signal.popSigframe, h.edi, h.esi, h.ebp, h.ebx, h.edx, h.ecx, h.eax, h.eip,
    h.cs, h.eflags, h.esp, h.ss]

/-! ## The trampoline -/

theorem Frame.fetch_movEax {m : Bytes} {f : ℕ} {c : Cpu} (h : Frame m f c) :
    fetch m (f + 80) = .movEax SYS_sigreturn := by
  have h0 := h.code 0 (by omega)
  have h1 := h.code 1 (by omega)
  have h2 := h.code 2 (by omega)
  have h3 := h.code 3 (by omega)
  have h4 := h.code 4 (by omega)
  have hld : ld m (f + 80 + 1) = SYS_sigreturn := by
    rw [ld, r32, Nat.add_assoc (f + 80), Nat.add_assoc (f + 80), Nat.add_assoc (f + 80), h1, h2,
      h3, h4]
    decide
  rw [Nat.add_zero] at h0
  rw [fetch, if_neg (by rw [h0]; decide), if_pos (by rw [h0]; rfl), hld]

theorem Frame.fetch_int80 {m : Bytes} {f : ℕ} {c : Cpu} (h : Frame m f c) :
    fetch m (f + 85) = .int80 := by
  have h5 : m (f + 85) = 0xCD := h.code 5 (by omega)
  have h6 : m (f + 85 + 1) = 0x80 := h.code 6 (by omega)
  rw [fetch, if_neg (by rw [h5]; decide), if_neg (by rw [h5]; decide), if_pos ⟨h5, h6⟩]

/-- **The way to the gate.** From the `ret` of a handler the trampoline calls `sigreturn` with the
stack pointer just above the return address. -/
theorem Frame.trampoline {q : Proc} {c : Cpu} (h : Frame q.mem q.cpu.esp.toNat c)
    (hf : q.cpu.esp.toNat + sigframeBytes < 2 ^ 32) (hret : fetch q.mem q.cpu.eip.toNat = .ret)
    (kesp : UInt32) :
    ∃ r : Registers, trampoline kesp q = some ⟨q.task, r, q.mem⟩ ∧ r.eax = SYS_sigreturn ∧
      r.userEsp.toNat = q.cpu.esp.toNat + 4 := by
  set f := q.cpu.esp.toNat with hfdef
  simp only [sigframeBytes] at hf
  have h80 : (UInt32.ofNat (f + 80)).toNat = f + 80 := by
    rw [UInt32.toNat_ofNat', Nat.mod_eq_of_lt (by omega)]
  have h85 : (UInt32.ofNat (f + 80) + 5).toNat = f + 85 := by
    rw [UInt32.toNat_add, h80]
    exact Nat.mod_eq_of_lt (by simp; omega)
  have h4 : (q.cpu.esp + 4).toNat = f + 4 := by
    rw [UInt32.toNat_add]
    exact Nat.mod_eq_of_lt (by simp; omega)
  have s1 : q.cpu.step q.mem
      = some { q.cpu with eip := UInt32.ofNat (f + 80), esp := q.cpu.esp + 4 } := by
    rw [Cpu.step, hret]
    exact congrArg (fun e => some { q.cpu with eip := e, esp := q.cpu.esp + 4 }) h.ret
  refine ⟨trap 0x80 kesp { q.cpu with
    esp := q.cpu.esp + 4, eax := SYS_sigreturn, eip := UInt32.ofNat (f + 80) + 5 + 2 }, ?_, rfl, h4⟩
  rw [Signal.trampoline, s1, Option.bind_some, Cpu.step]
  simp only [h80, h.fetch_movEax, Option.bind_some, Cpu.int80, h85, h.fetch_int80,
    Option.map_some]

/-! ## The state while a handler runs -/

/-- A handler runs on top of the registers `c`, and `mask` is to be put back after it. -/
structure Interrupted (mask : UInt32) (c : Cpu) (p : Proc) : Prop where
  /-- A handler runs, -/
  active : p.task.sigActive ≠ 0
  /-- for a signal that there is one for. -/
  lt : p.task.sigActive.toNat < kSigMax
  /-- The mask of before is kept. -/
  saved : p.task.sigSavedMask = mask
  /-- The stack has room below, -/
  low : 16 ≤ p.cpu.esp.toNat
  /-- and for the frame above. -/
  high : p.cpu.esp.toNat + sigframeBytes < 2 ^ 32
  /-- The frame has the registers. -/
  frame : Frame p.mem p.cpu.esp.toNat c

/-- The result a call leaves in `eax` is not part of the frame. -/
theorem Interrupted.setEax {mask : UInt32} {c : Cpu} {x : Ctx} (h : Interrupted mask c x.toProc)
    (out : UInt32) (b : Bool) :
    Interrupted mask c ((x.setInSyscall b).setEax out).toProc :=
  ⟨h.active, h.lt, h.saved, h.low, h.high, h.frame⟩

/-- What a delivery needs. -/
theorem deliver_eq_some {x y : Ctx} {sig : UInt32} (h : deliver x sig = some y) :
    sig ≠ 0 ∧ sig.toNat < kSigMax ∧ sigframeBytes + 16 ≤ (x.regs.userEsp &&& ~~~3).toNat ∧
      y.task.sigActive = sig ∧ y.task.sigSavedMask = x.task.sigMask ∧
      y.task.sigPending = x.task.sigPending ∧
      y.regs.userEsp.toNat = (x.regs.userEsp &&& ~~~3).toNat - sigframeBytes ∧
      y.mem = pushSigframe x.mem y.regs.userEsp.toNat x.regs sig := by
  rw [deliver] at h
  split at h
  · next hs =>
    dsimp only at h
    split at h
    · cases h
    · split at h
      · cases h
      · split at h
        · cases h
        · next hroom =>
          cases h
          have hlt := (x.regs.userEsp &&& ~~~3).toNat_lt
          have hfp : (UInt32.ofNat ((x.regs.userEsp &&& ~~~3).toNat - sigframeBytes)).toNat
              = (x.regs.userEsp &&& ~~~3).toNat - sigframeBytes := by
            rw [UInt32.toNat_ofNat', Nat.mod_eq_of_lt (by omega)]
          refine ⟨hs.1, hs.2, by omega, rfl, rfl, rfl, hfp, ?_⟩
          dsimp only
          rw [hfp]
  · cases h

theorem deliver_interrupted {x y : Ctx} {sig : UInt32} (h : deliver x sig = some y) :
    Interrupted x.task.sigMask (iret x.regs) y.toProc := by
  obtain ⟨h0, hlt, hroom, hact, hsaved, -, hesp, hmem⟩ := deliver_eq_some h
  have hsp := (x.regs.userEsp &&& ~~~3).toNat_lt
  have hlo : 16 ≤ y.regs.userEsp.toNat := by omega
  refine ⟨?_, ?_, hsaved, hlo, ?_, ?_⟩
  · exact hact ▸ h0
  · exact hact ▸ hlt
  · change y.regs.userEsp.toNat + sigframeBytes < 2 ^ 32
    simp only [sigframeBytes] at hroom hesp ⊢
    omega
  · change Frame y.mem y.regs.userEsp.toNat _
    rw [hmem]
    exact frame_pushSigframe _ _ _ _

/-- Nothing is delivered while a handler runs. -/
theorem deliverPending_of_active {x : Ctx} (h : x.task.sigActive ≠ 0) : deliverPending x = x :=
  if_pos (Or.inr h)

theorem deliverPending_of_none {x : Ctx} (h : x.task.sigPending = 0) : deliverPending x = x :=
  if_pos (Or.inl h)

/-- **One step of a handler** keeps the active signal and the mask to put back. -/
theorem HandlerStep.kept {p q : Proc} (h : HandlerStep p q) (ha : p.task.sigActive ≠ 0) :
    q.task.sigActive = p.task.sigActive ∧ q.task.sigSavedMask = p.task.sigSavedMask := by
  cases h with
  | user => exact ⟨rfl, rfl⟩
  | sigaction => exact ⟨rfl, rfl⟩
  | raised => exact ⟨rfl, rfl⟩
  | tick => rw [deliverPending_of_active ha]; exact ⟨rfl, rfl⟩
  | call => rw [syscallReturn, deliverPending_of_active ha]; exact ⟨rfl, rfl⟩

/-- **A whole run of a handler** keeps them. -/
theorem HandlerReturns.kept {p q : Proc} (h : HandlerReturns p q) (ha : p.task.sigActive ≠ 0) :
    q.task.sigActive = p.task.sigActive ∧ q.task.sigSavedMask = p.task.sigSavedMask := by
  obtain ⟨hruns, -, -, -⟩ := h
  induction hruns with
  | refl => exact ⟨rfl, rfl⟩
  | tail _ hstep ih =>
    have := hstep.kept (ih.1 ▸ ha)
    exact ⟨this.1.trans ih.1, this.2.trans ih.2⟩

theorem Interrupted.returns {mask : UInt32} {c : Cpu} {p q : Proc} (hp : Interrupted mask c p)
    (h : HandlerReturns p q) : Interrupted mask c q := by
  obtain ⟨hact, hsaved⟩ := h.kept hp.active
  refine ⟨hact ▸ hp.active, hact ▸ hp.lt, hsaved.trans hp.saved, ?_, ?_, ?_⟩
  · exact h.esp ▸ hp.low
  · exact h.esp ▸ hp.high
  · rw [h.esp]
    exact hp.frame.congr h.frame

/-! ## The way back -/

/-- The process is on its own again: `c` is loaded and `mask` is back. -/
structure Restored (mask : UInt32) (c : Cpu) (x : Ctx) : Prop where
  /-- No handler runs. -/
  idle : x.task.sigActive = 0
  /-- The mask is back, -/
  mask : x.task.sigMask = mask
  /-- and so are the registers. -/
  regs : iret x.regs = c

/-- **`sigreturn`** either restores the registers of the frame, or it starts the handler of the
next signal on top of the same registers. -/
theorem Interrupted.sigreturn {mask : UInt32} {c : Cpu} {p : Proc} {x y : Ctx}
    (hp : Interrupted mask c p) (hact : x.task.sigActive = p.task.sigActive)
    (hsaved : x.task.sigSavedMask = p.task.sigSavedMask) (hmem : x.mem = p.mem)
    (hesp : x.regs.userEsp.toNat = p.cpu.esp.toNat + 4) (h : sigreturn x = some y) :
    y.task.sigPending = 0 ∧ (Restored mask c y ∨ Interrupted mask c y.toProc) := by
  have hlt : ¬kSigMax ≤ x.task.sigActive.toNat := hact ▸ Nat.not_le.mpr hp.lt
  rw [Signal.sigreturn, if_neg (not_or.mpr ⟨hact ▸ hp.active, hlt⟩), if_neg (by omega)] at h
  dsimp only at h
  have hregs : iret x.pop.regs = c := by
    change iret (popSigframe x.mem (x.regs.userEsp.toNat - 4) x.regs) = c
    rw [hesp, Nat.add_sub_cancel, hmem]
    exact hp.frame.popSigframe x.regs
  have hmask : x.pop.task.sigMask = mask := hsaved.trans hp.saved
  have hpop : x.pop.task.sigPending = 0 ∧ Restored mask c x.pop := ⟨rfl, rfl, hmask, hregs⟩
  split at h
  · cases hd : deliver x.pop x.task.sigPending with
    | none =>
      rw [hd, Option.getD_none] at h
      obtain rfl := Option.some.inj h
      exact ⟨hpop.1, Or.inl hpop.2⟩
    | some w =>
      rw [hd, Option.getD_some] at h
      obtain rfl := Option.some.inj h
      obtain ⟨-, -, -, -, -, hpend, -⟩ := deliver_eq_some hd
      refine ⟨hpend.trans hpop.1, Or.inr ?_⟩
      rw [← hregs, ← hmask]
      exact deliver_interrupted hd
  · obtain rfl := Option.some.inj h
    exact ⟨hpop.1, Or.inl hpop.2⟩

/-- With nothing pending `sigreturn` just comes back. -/
theorem sigreturn_of_none {x : Ctx} (hact : x.task.sigActive ≠ 0)
    (hlt : x.task.sigActive.toNat < kSigMax) (hesp : 4 ≤ x.regs.userEsp.toNat)
    (hpend : x.task.sigPending = 0) : sigreturn x = some x.pop := by
  rw [sigreturn, if_neg (not_or.mpr ⟨hact, Nat.not_le.mpr hlt⟩), if_neg (Nat.not_lt.mpr hesp)]
  exact if_neg fun h => h.1 hpend

theorem syscallDispatch_sigreturn {other : Ctx → Option (UInt32 × Ctx)} {x : Ctx}
    (h : x.regs.eax = SYS_sigreturn) :
    syscallDispatch other x = (sigreturn (x.setInSyscall true)).map (syscallReturn 0) := by
  have heax : (x.setInSyscall true).regs.eax = SYS_sigreturn := h
  rw [syscallDispatch, if_pos heax, Option.map_map]
  rfl

/-- The process after the last handler: everything is back, and `eax` is the zero that the call
`SYS_sigreturn` itself returns. -/
structure Back (mask : UInt32) (c : Cpu) (p : Proc) : Prop where
  /-- No handler runs. -/
  idle : p.task.sigActive = 0
  /-- The mask is back, -/
  mask : p.task.sigMask = mask
  /-- and so are the registers, but for `eax`. -/
  cpu : p.cpu = { c with eax := 0 }

/-- **The call `SYS_sigreturn`** from the trampoline to the `iret` of the stub. -/
theorem Interrupted.dispatch {mask : UInt32} {c : Cpu} {q : Proc} {kesp : UInt32} {x y : Ctx}
    {other : Ctx → Option (UInt32 × Ctx)} (hq : Interrupted mask c q)
    (hret : fetch q.mem q.cpu.eip.toNat = .ret) (ht : trampoline kesp q = some x)
    (hd : syscallDispatch other x = some y) :
    Back mask c y.toProc ∨ Interrupted mask c y.toProc := by
  obtain ⟨r, hr, heax, hesp⟩ := hq.frame.trampoline hq.high hret kesp
  obtain rfl : ⟨q.task, r, q.mem⟩ = x := Option.some.inj (hr.symm.trans ht)
  rw [syscallDispatch_sigreturn heax] at hd
  obtain ⟨z, hz, rfl⟩ := Option.map_eq_some_iff.mp hd
  obtain ⟨hpend, hback | hint⟩ := hq.sigreturn rfl rfl rfl hesp hz
  · left
    simp only [syscallReturn, deliverPending_of_none hpend]
    exact ⟨hback.idle, hback.mask, hback.regs ▸ rfl⟩
  · right
    simp only [syscallReturn, deliverPending_of_none hpend]
    exact hint.setEax 0 false

/-- **Every way back.** However many signals are handled on the way, the process comes back to the
registers of the first frame, except that `eax` is zero. -/
theorem Interrupted.resumes {mask : UInt32} {c : Cpu} {p p' : Proc}
    {other : Ctx → Option (UInt32 × Ctx)} (h : Resumes other p p') (hp : Interrupted mask c p) :
    Back mask c p' := by
  induction h with
  | last hret ht hd hidle =>
    rcases (hp.returns hret).dispatch hret.ret ht hd with hback | hint
    · exact hback
    · exact absurd hidle hint.active
  | again hret ht hd hact _ ih =>
    rcases (hp.returns hret).dispatch hret.ret ht hd with hback | hint
    · exact absurd hback.idle hact
    · exact ih hint

/-- There is a way back from every handler: one that returns at once, with nothing else pending. -/
theorem Interrupted.exists_resumes {mask : UInt32} {c : Cpu} {p : Proc}
    (hp : Interrupted mask c p) (other : Ctx → Option (UInt32 × Ctx)) :
    ∃ p', Resumes other p p' := by
  -- the `ret` is put at address `0`, which is outside every frame
  let q : Proc := ⟨{ p.task with sigPending := 0 }, { p.cpu with eip := 0 }, w8 p.mem 0 0xC3⟩
  have hq : HandlerReturns p q := by
    refine ⟨?_, rfl, fun i _ => w8_of_ne ?_, ?_⟩
    · exact (Relation.ReflTransGen.single (.user p { p.cpu with eip := 0 } (w8 p.mem 0 0xC3))).tail
        (.raised _ 0)
    · have := hp.low
      omega
    · exact if_pos rfl
  have hint := hp.returns hq
  obtain ⟨r, hr, heax, hesp⟩ := hint.frame.trampoline hint.high hq.ret 0
  have hs : Signal.sigreturn (Ctx.setInSyscall ⟨q.task, r, q.mem⟩ true) = some
      (Ctx.setInSyscall ⟨q.task, r, q.mem⟩ true).pop :=
    sigreturn_of_none hint.active hint.lt (hesp ▸ Nat.le_add_left _ _) rfl
  have hd : syscallDispatch other ⟨q.task, r, q.mem⟩
      = some (syscallReturn 0 (Ctx.setInSyscall ⟨q.task, r, q.mem⟩ true).pop) := by
    rw [syscallDispatch_sigreturn heax, hs, Option.map_some]
  refine ⟨_, .last hq hr hd ?_⟩
  rw [syscallReturn, deliverPending_of_none rfl]
  rfl

/-! ## Transparency -/

theorem exists_deliver {x : Ctx} {sig : UInt32} (h0 : sig ≠ 0) (hlt : sig.toNat < kSigMax)
    (hh : x.task.sigHandlers ⟨sig.toNat, hlt⟩ ≠ 0) (hm : x.task.sigMask &&& (1 <<< sig) = 0)
    (hr : sigframeBytes + 16 ≤ (x.regs.userEsp &&& ~~~3).toNat) : ∃ y, deliver x sig = some y := by
  rw [deliver, dif_pos ⟨h0, hlt⟩]
  dsimp only
  rw [if_neg hh, if_neg (not_not.mpr hm), if_neg (Nat.not_lt.mpr hr)]
  exact ⟨_, rfl⟩

theorem Deliverable.deliver {x : Ctx} (h : Deliverable x) :
    ∃ y, deliver (x.setPending 0) x.task.sigPending = some y ∧ deliverPending x = y := by
  obtain ⟨y, hy⟩ := exists_deliver (x := x.setPending 0) h.pending h.lt h.handled h.unblocked h.room
  have hh : (x.setPending 0).task.sigHandlers ⟨x.task.sigPending.toNat, h.lt⟩ ≠ 0 := h.handled
  refine ⟨y, hy, ?_⟩
  rw [deliverPending, if_neg (not_or.mpr ⟨h.pending, not_not.mpr h.idle⟩)]
  dsimp only
  rw [dif_pos h.lt, if_pos hh, hy, Option.getD_some]

/-- The handler of a pending signal starts on top of the registers of the frame: at the tail of a
call these still hold the number of the call in `eax`, not its result. -/
theorem Deliverable.enter {x : Ctx} (h : Deliverable x) (o : Origin) :
    Interrupted x.task.sigMask (iret x.regs) (o.enter x) := by
  obtain ⟨y, hy, hpend⟩ := h.deliver
  have hint := deliver_interrupted hy
  cases o with
  | syscall out =>
    simp only [Origin.enter, syscallReturn, hpend]
    exact hint.setEax out false
  | preempt =>
    simp only [Origin.enter, hpend]
    exact hint

theorem Origin.resume_eq_iff (o : Origin) (r : Registers) :
    { iret r with eax := 0 } = o.resume r ↔ (o.resume r).eax = 0 := by
  constructor
  · intro h
    rw [← h]
  · intro h
    cases o with
    | syscall out =>
      obtain rfl : out = 0 := h
      rfl
    | preempt =>
      have h0 : r.eax = 0 := h
      simp only [Origin.resume, iret, h0]

/-- **Transparency.** Every way back from the handler resumes the process in the state it would
have been in without the signal if and only if that state has a zero in `eax`. -/
theorem signal_transparent_iff (other : Ctx → Option (UInt32 × Ctx)) (o : Origin) (x : Ctx)
    (h : Deliverable x) :
    (∀ p, Resumes other (o.enter x) p →
        p.cpu = o.resume x.regs ∧ p.task.sigMask = x.task.sigMask ∧ p.task.sigActive = 0)
      ↔ (o.resume x.regs).eax = 0 := by
  have hint := h.enter o
  constructor
  · intro hall
    obtain ⟨p, hp⟩ := hint.exists_resumes other
    rw [← (hall p hp).1, (hint.resumes hp).cpu]
  · intro h0 p hp
    have hback := hint.resumes hp
    exact ⟨hback.cpu.trans ((o.resume_eq_iff x.regs).mpr h0), hback.mask, hback.idle⟩

/-- A process at the tail of a call, with signal 10 pending and a handler for it. -/
def usr1Pending : Ctx where
  task := { Task.zero with
    sigPending := 10
    sigHandlers := fun s => if s.val = 10 then 0x40000500 else 0 }
  regs := { Registers.zero with eax := 23, eip := 0x40000100, cs := 0x1B, userEsp := 0x4010F000 }
  mem := fun _ => 0

theorem usr1Pending_deliverable : Deliverable usr1Pending := by
  refine ⟨?_, ?_, ?_, ?_, ?_, ?_⟩ <;> decide

theorem signal_transparent_iff_usr1 :
    Deliverable usr1Pending ∧
      ∀ p, Resumes (fun _ => none) ((Origin.syscall 0).enter usr1Pending) p →
        p.cpu = (Origin.syscall 0).resume usr1Pending.regs ∧
          p.task.sigMask = usr1Pending.task.sigMask ∧ p.task.sigActive = 0 :=
  ⟨usr1Pending_deliverable,
    (signal_transparent_iff (fun _ => none) (.syscall 0) usr1Pending usr1Pending_deliverable).mpr
      rfl⟩

/-- A call that returns 3, `getpid` say, comes back as 0 when a signal is handled on its way out. -/
theorem getpid_result_lost :
    Deliverable usr1Pending ∧
      ((Origin.syscall 3).resume usr1Pending.regs).eax = 3 ∧
      (∃ p, Resumes (fun _ => none) ((Origin.syscall 3).enter usr1Pending) p) ∧
      ∀ p, Resumes (fun _ => none) ((Origin.syscall 3).enter usr1Pending) p → p.cpu.eax = 0 := by
  have hint := usr1Pending_deliverable.enter (.syscall 3)
  refine ⟨usr1Pending_deliverable, rfl, hint.exists_resumes _, fun p hp => ?_⟩
  rw [(hint.resumes hp).cpu]

end Signal

end Aurisys
