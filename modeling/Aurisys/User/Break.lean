import Aurisys.User.Alloc
import Aurisys.Heap.Frames

/-!
# The break

Two calls move the break of a process. `task_brk` takes the address it is to have, in the addresses
of the program, and `task_sbrk` takes a difference. The task keeps it in the addresses of the
kernel. Both refuse to leave the arena, and on 32 bits nothing wraps, as the arena ends below `2 ^
32` in either.

An arena comes from `give_frames`. From then on only the two calls change it: a child of `fork_user`
has the numbers of its parent, and a failed `replace` puts them back.

## Main definitions

* `taskBrk`, `BrkCall`
* `InArena` — where the break is
* `HasArena` — the tasks that were given an arena, whatever happened then

## Main results

* `HasArena.inArena`
* `break_in_arena`
-/

namespace Aurisys

open Paging

namespace Kernel

/-- `task_brk`. -/
def taskBrk (t : Task) (addr : ℕ) : ℕ × Task :=
  if t.brk = 0 then (0, t)
  else if addr = 0 then (toVa t t.brk, t)
  else if addr < kArenaVA ∨ kArenaVA + kArenaBytes < addr then (0, t)
  else (addr, setBrk t ((t.heapBase + (addr - kArenaVA)) % 2 ^ 32))

/-- The calls, with the register they are given. -/
inductive BrkCall
  | brk (addr : UInt32)
  | sbrk (delta : UInt32)

namespace BrkCall

/-- What is returned, and the task after it. -/
def run : BrkCall → Task → ℕ × Task
  | .brk addr, t => taskBrk t addr.toNat
  | .sbrk delta, t => taskSbrk t (toInt delta.toNat)

end BrkCall

/-- The break is in an arena that ends below `2 ^ 32`. -/
structure InArena (t : Task) : Prop where
  /-- The process has an arena, -/
  base : t.heapBase ≠ 0
  /-- of this size, -/
  ceiling : t.heapEnd = t.heapBase + kArenaBytes
  /-- which ends below `2 ^ 32`. -/
  word : t.heapEnd < 2 ^ 32
  /-- The break is not in front of it, -/
  low : t.heapBase ≤ t.brk
  /-- nor behind it. -/
  high : t.brk ≤ t.heapEnd

/-- The arena and the break are the same. -/
structure SameArena (t t' : Task) : Prop where
  base : t'.heapBase = t.heapBase
  ceiling : t'.heapEnd = t.heapEnd
  brk : t'.brk = t.brk

variable {H : Type} [PageAlloc H] {t t' : Task}

theorem sameArena_childOf (p : Task) (slot : Fin kMaxTask) (sp kstack : ℕ) (frame : Registers) :
    SameArena p (childOf p slot sp kstack frame) := ⟨rfl, rfl, rfl⟩

theorem InArena.same (h : InArena t) (hs : SameArena t t') : InArena t' where
  base := by rw [hs.base]; exact h.base
  ceiling := by rw [hs.ceiling, hs.base]; exact h.ceiling
  word := by rw [hs.ceiling]; exact h.word
  low := by rw [hs.base, hs.brk]; exact h.low
  high := by rw [hs.brk, hs.ceiling]; exact h.high

/-- A task that `give_frames` gave an arena, after any calls and whatever leaves the arena as it
is. -/
inductive HasArena (H : Type) [PageAlloc H] : Task → Prop
  | given {m m' : Mmu H} {t t' : Task} (h : giveFrames m t = (true, t', m')) : HasArena H t'
  | kept {t t' : Task} (ht : HasArena H t) (hs : SameArena t t') : HasArena H t'
  | call {t : Task} (ht : HasArena H t) (c : BrkCall) : HasArena H (c.run t).2

/-! ## The addresses of the program -/

/-- The break, as the program is told it. -/
def breakVa (t : Task) : ℕ := (taskBrk t 0).1

theorem kArenaVA_eq : kArenaVA = 0x40200000 := rfl

theorem kArenaBytes_eq : kArenaBytes = 0x100000 := rfl

namespace InArena

theorem brk_ne (h : InArena t) : t.brk ≠ 0 := by
  have hb := h.base
  have hl := h.low
  omega

theorem setBrk (h : InArena t) {n : ℕ} (hl : t.heapBase ≤ n) (hh : n ≤ t.heapEnd) :
    InArena (setBrk t n) :=
  ⟨h.base, h.ceiling, h.word, hl, hh⟩

theorem toVa_eq (h : InArena t) {n : ℕ} (hl : t.heapBase ≤ n) (hh : n ≤ t.heapEnd) :
    toVa t n = kArenaVA + (n - t.heapBase) := by
  have hc := h.ceiling
  have hw := h.word
  rw [toVa]
  rw [kArenaVA_eq]
  rw [kArenaBytes_eq] at hc
  omega

theorem breakVa_eq (h : InArena t) : breakVa t = kArenaVA + (t.brk - t.heapBase) := by
  rw [breakVa, taskBrk, if_neg h.brk_ne, if_pos rfl]
  exact h.toVa_eq h.low h.high

/-- `task_brk` at an address of the arena. -/
theorem taskBrk_of_le (h : InArena t) {addr : ℕ} (hl : kArenaVA ≤ addr)
    (hh : addr ≤ kArenaVA + kArenaBytes) :
    taskBrk t addr = (addr, Kernel.setBrk t (t.heapBase + (addr - kArenaVA))) := by
  have hc := h.ceiling
  have hw := h.word
  have h0 : addr ≠ 0 := by
    rw [kArenaVA_eq] at hl
    omega
  rw [taskBrk, if_neg h.brk_ne, if_neg h0, if_neg (by omega), Nat.mod_eq_of_lt (by omega)]

/-- `task_brk` refuses an address that is not one of the arena, and leaves the task as it is. -/
theorem taskBrk_of_lt (h : InArena t) {addr : ℕ} (h0 : addr ≠ 0)
    (hout : addr < kArenaVA ∨ kArenaVA + kArenaBytes < addr) : taskBrk t addr = (0, t) := by
  rw [taskBrk, if_neg h.brk_ne, if_neg h0, if_pos hout]

/-- `task_sbrk` within the arena. -/
theorem taskSbrk_of_le (h : InArena t) {delta : ℤ} (hl : t.heapBase ≤ t.brk + delta)
    (hh : t.brk + delta ≤ t.heapEnd) : taskSbrk t delta =
      (kArenaVA + ((t.brk + delta).toNat - t.heapBase), Kernel.setBrk t (t.brk + delta).toNat) := by
  have hva := (h.setBrk (n := (t.brk + delta).toNat) (by omega) (by omega)).toVa_eq
    (n := (t.brk + delta).toNat) (by change t.heapBase ≤ _; omega) (by change _ ≤ t.heapEnd; omega)
  rw [taskSbrk, if_neg h.brk_ne]
  simp only []
  rw [if_neg (by omega)]
  exact Prod.ext hva rfl

/-- `task_sbrk` beyond either end. -/
theorem taskSbrk_of_lt (h : InArena t) {delta : ℤ}
    (hout : t.brk + delta < t.heapBase ∨ t.heapEnd < t.brk + delta) :
    taskSbrk t delta = (0, t) := by
  rw [taskSbrk, if_neg h.brk_ne]
  exact if_pos hout

/-- A call leaves the break in the arena. When it is refused it leaves the task. -/
theorem run (h : InArena t) (c : BrkCall) :
    InArena (c.run t).2 ∧ ((c.run t).1 = 0 → (c.run t).2 = t) := by
  have hc := h.ceiling
  cases c with
  | brk addr =>
    rw [BrkCall.run]
    by_cases h0 : addr.toNat = 0
    · rw [taskBrk, if_neg h.brk_ne, if_pos h0]
      exact ⟨h, fun _ => rfl⟩
    · by_cases hin : kArenaVA ≤ addr.toNat ∧ addr.toNat ≤ kArenaVA + kArenaBytes
      · rw [h.taskBrk_of_le hin.1 hin.2]
        exact ⟨h.setBrk (by omega) (by omega), fun hz => absurd hz h0⟩
      · rw [h.taskBrk_of_lt h0 (by omega)]
        exact ⟨h, fun _ => rfl⟩
  | sbrk delta =>
    rw [BrkCall.run]
    by_cases hin : t.heapBase ≤ t.brk + toInt delta.toNat ∧ t.brk + toInt delta.toNat ≤ t.heapEnd
    · rw [h.taskSbrk_of_le hin.1 hin.2]
      exact ⟨h.setBrk (by omega) (by omega), fun hz => absurd hz (by rw [kArenaVA_eq]; omega)⟩
    · rw [h.taskSbrk_of_lt (by omega)]
      exact ⟨h, fun _ => rfl⟩

end InArena

/-! ## Processes -/

/-- What `give_frames` gives. -/
theorem inArena_giveFrames {m m' : Mmu H} (h : giveFrames m t = (true, t', m')) : InArena t' := by
  simp only [giveFrames] at h
  generalize m.kframeAllocN (kCodeBytes / 4096) = code at h
  generalize code.2.kframeAllocN (kStackBytes / 4096) = stack at h
  have hle : (stack.2.kframeAllocN (kArenaBytes / 4096)).1 ≠ 0 →
      (stack.2.kframeAllocN (kArenaBytes / 4096)).1 + kArenaBytes / 4096 * 4096 < 2 ^ 32 :=
    PageAlloc.allocN_le stack.2.heap _ (by decide)
  generalize stack.2.kframeAllocN (kArenaBytes / 4096) = heap at h hle
  by_cases h0 : code.1 = 0 ∨ stack.1 = 0 ∨ heap.1 = 0
  · rw [if_pos h0] at h
    cases (Prod.mk.inj h).1
  · rw [if_neg h0] at h
    obtain ⟨rfl, -⟩ := Prod.mk.inj (Prod.mk.inj h).2
    have hh : heap.1 ≠ 0 := fun hz => h0 (.inr (.inr hz))
    exact ⟨hh, rfl, hle hh, le_rfl, Nat.le_add_right _ _⟩

/-- **The break stays in the arena**, whatever calls are made. -/
theorem HasArena.inArena (ht : HasArena H t) : InArena t := by
  induction ht with
  | given h => exact inArena_giveFrames h
  | kept _ hs ih => exact ih.same hs
  | call _ c ih => exact (ih.run c).1

/-- **The break** of a process is in the arena, what is refused changes nothing, and the two calls
agree: `task_sbrk` is `task_brk` of the sum, and succeeds exactly when the sum lies in the arena. -/
theorem break_in_arena (ht : HasArena H t) :
    (t.heapBase ≤ t.brk ∧ t.brk ≤ t.heapEnd) ∧ (∀ c : BrkCall, (c.run t).1 = 0 → (c.run t).2 = t) ∧
      ∀ delta : UInt32, ((taskSbrk t (toInt delta.toNat)).1 ≠ 0 →
          taskSbrk t (toInt delta.toNat) = taskBrk t (breakVa t + toInt delta.toNat).toNat) ∧
        ((taskSbrk t (toInt delta.toNat)).1 ≠ 0 ↔ kArenaVA ≤ breakVa t + toInt delta.toNat ∧
          breakVa t + toInt delta.toNat ≤ kArenaVA + kArenaBytes) := by
  have h := ht.inArena
  have hc := h.ceiling
  have hl := h.low
  have hva := h.breakVa_eq
  refine ⟨⟨h.low, h.high⟩, fun c => (h.run c).2, fun delta => ?_⟩
  generalize toInt delta.toNat = d
  by_cases hin : t.heapBase ≤ t.brk + d ∧ t.brk + d ≤ t.heapEnd
  · have hs := h.taskSbrk_of_le hin.1 hin.2
    have hb : taskBrk t (breakVa t + d).toNat = _ := h.taskBrk_of_le (by omega) (by omega)
    have h1 : t.heapBase + ((breakVa t + d).toNat - kArenaVA) = (t.brk + d).toNat := by omega
    have h2 : (breakVa t + d).toNat = kArenaVA + ((t.brk + d).toNat - t.heapBase) := by omega
    have h0 : (taskSbrk t d).1 ≠ 0 := by
      rw [hs, kArenaVA_eq]
      omega
    refine ⟨fun _ => ?_, iff_of_true h0 (by omega)⟩
    rw [hb, hs, h1, h2]
  · have hout : t.brk + d < t.heapBase ∨ t.heapEnd < t.brk + d := by omega
    have hs := h.taskSbrk_of_lt hout
    have h0 : ¬(taskSbrk t d).1 ≠ 0 := fun hne => hne (by rw [hs])
    exact ⟨fun hne => absurd hne h0, iff_of_false h0 (by omega)⟩

/-- A process that asked for a page and gave it back, and its child. -/
theorem break_in_arena_child :
    ∃ t, HasArena Pages.Bump t ∧ (t.heapBase ≤ t.brk ∧ t.brk ≤ t.heapEnd) ∧
    (∀ c : BrkCall, (c.run t).1 = 0 → (c.run t).2 = t) ∧
      ∀ delta : UInt32, ((taskSbrk t (toInt delta.toNat)).1 ≠ 0 →
          taskSbrk t (toInt delta.toNat) = taskBrk t (breakVa t + toInt delta.toNat).toNat) ∧
        ((taskSbrk t (toInt delta.toNat)).1 ≠ 0 ↔ kArenaVA ≤ breakVa t + toInt delta.toNat ∧
          breakVa t + toInt delta.toNat ≤ kArenaVA + kArenaBytes) := by
  have hok : (giveFrames bare .zero).1 = true := by decide +kernel
  obtain ⟨t, ht⟩ : ∃ t, HasArena Pages.Bump t := by
    generalize hres : giveFrames bare .zero = r at hok
    obtain ⟨ok, t, m⟩ := r
    obtain rfl : ok = true := hok
    exact ⟨t, .given hres⟩
  have hcalls := (ht.call (.sbrk 4096)).call (.sbrk 0xFFFFF000)
  have hchild := hcalls.kept (sameArena_childOf _ 1 4096 8192 Task.zero.regs)
  exact ⟨_, hchild, break_in_arena hchild⟩

end Kernel

end Aurisys
