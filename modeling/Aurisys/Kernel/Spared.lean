import Aurisys.Kernel.PipeWait

/-!
# What leaves a parked task alone

A task that is parked is woken by somebody who has it in a list, by its child if it waits for one,
or by a signal. So the operations of the kernel are gone through once, from the point of view of one
task that is in no list and waits for no child: unless a signal comes, each of them leaves it where
it is.

## Main definitions

* `Task.Quiet` — alive, and no signal has come
* `Task.Spared` — what was done to a task has not to do with how it is parked, or it is not quiet
  any more
* `Kernel.Leaves` — the same for one task of the table, which is in no list of a pipe either

## Main results

* `Leaves.fdCloseAll`, `Leaves.announce`, `Leaves.exit`, `Leaves.reap`, `Leaves.signalTask`,
  `Leaves.switchTo` — one for each part of the kernel
-/

namespace Aurisys

open Paging

namespace Task

/-- Alive, and no signal has come. -/
def Quiet (t : Task) : Prop :=
  t.sigPending = 0 ∧ (t.state = .ready ∨ t.state = .running ∨ t.state = .blocked)

/-- As far as a task that sleeps is concerned nothing happened, unless it is not quiet any more.
What is pending stays, and what was quiet afterwards was so before. -/
structure Spared (t t' : Task) : Prop where
  waiting : t'.waiting = t.waiting
  inSyscall : t'.inSyscall = t.inSyscall
  /-- A signal stays. -/
  signalled : t.sigPending ≠ 0 → t'.sigPending ≠ 0
  /-- Without one the task is blocked as before, until the same time. -/
  quiet : t'.Quiet → t.Quiet ∧ t'.sleepUntil = t.sleepUntil ∧
    (t'.state = .blocked ↔ t.state = .blocked)

variable {t t' t'' : Task}

theorem Spared.refl (t : Task) : t.Spared t :=
  ⟨rfl, rfl, id, fun h => ⟨h, rfl, Iff.rfl⟩⟩

theorem Spared.trans (h : t.Spared t') (h' : t'.Spared t'') : t.Spared t'' where
  waiting := h'.waiting.trans h.waiting
  inSyscall := h'.inSyscall.trans h.inSyscall
  signalled hs := h'.signalled (h.signalled hs)
  quiet hq := by
    obtain ⟨hq', hs', hb'⟩ := h'.quiet hq
    obtain ⟨hq₀, hs, hb⟩ := h.quiet hq'
    exact ⟨hq₀, hs'.trans hs, hb'.trans hb⟩

/-- Other fields change. -/
theorem Spared.of_same (hw : t'.waiting = t.waiting) (hi : t'.inSyscall = t.inSyscall)
    (hp : t'.sigPending = t.sigPending) (hs : t'.sleepUntil = t.sleepUntil)
    (hst : t'.state = t.state) : t.Spared t' := by
  refine ⟨hw, hi, fun h => hp.symm ▸ h, fun h => ⟨?_, hs, by rw [hst]⟩⟩
  rwa [Quiet, hp, hst] at h

/-- Who has died is quiet no more. -/
theorem Spared.of_dead (hw : t'.waiting = t.waiting) (hi : t'.inSyscall = t.inSyscall)
    (hp : t'.sigPending = t.sigPending)
    (hst : t'.state = .free ∨ t'.state = .zombie ∨ t'.state = .killed) : t.Spared t' := by
  refine ⟨hw, hi, fun h => hp.symm ▸ h, fun h => ?_⟩
  rcases hst with h' | h' | h' <;> rw [Quiet, h'] at h <;> simp at h

end Task

namespace Kernel

variable {H : Type} {k k' : Kernel H} {i j : Fin kMaxTask} {t : Task}

/-- The task was left as it was, and no pipe knows it. -/
structure Leaves (t : Task) (i : Fin kMaxTask) (k : Kernel H) : Prop where
  spared : t.Spared (k.tasks i)
  place : ∀ a d, (k.pipes a).place d ≠ some i

namespace Leaves

theorem setTask (h : Leaves t i k) {t' : Task} (ht : (k.tasks j).Spared t') :
    Leaves t i (k.setTask j t') := by
  refine ⟨?_, h.place⟩
  rw [setTask_tasks, Function.update_apply]
  split
  · next hi =>
    subst hi
    exact h.spared.trans ht
  · exact h.spared

theorem setTask_ne (h : Leaves t i k) (t' : Task) (hj : j ≠ i) : Leaves t i (k.setTask j t') := by
  refine ⟨?_, h.place⟩
  rw [setTask_tasks, Function.update_of_ne hj.symm]
  exact h.spared

theorem setMmu (h : Leaves t i k) (m : Mmu H) : Leaves t i (k.setMmu m) := ⟨h.spared, h.place⟩

theorem setPipes (h : Leaves t i k) {pipes : ℕ → Pipe} (hp : ∀ a d, (pipes a).place d ≠ some i) :
    Leaves t i (k.setPipes pipes) := ⟨h.spared, hp⟩

theorem unblock (h : Leaves t i k) (hj : j ≠ i) : Leaves t i (k.unblock j) := by
  rw [Kernel.unblock]
  split
  · exact h.setTask_ne _ hj
  · exact h.setTask_ne _ hj

/-- Who has a signal may be woken. -/
theorem unblock_signalled (h : Leaves t i k) (hs : (k.tasks i).sigPending ≠ 0) (j : Fin kMaxTask) :
    Leaves t i (k.unblock j) := by
  by_cases hj : j = i
  · subst hj
    rw [Kernel.unblock]
    split
    · exact h.setTask ⟨rfl, rfl, id, fun hq => absurd hq.1 hs⟩
    · exact h.setTask ⟨rfl, rfl, id, fun hq => absurd hq.1 hs⟩
  · exact h.unblock hj

theorem elim_unblock (h : Leaves t i k) {o : Option (Fin kMaxTask)} (ho : o ≠ some i) :
    Leaves t i (o.elim k k.unblock) := by
  cases o with
  | none => exact h
  | some j => exact h.unblock fun hj => ho (congrArg some hj)

theorem foldl {β : Type} {f : Kernel H → β → Kernel H} {l : List β}
    (hf : ∀ k, Leaves t i k → ∀ b ∈ l, Leaves t i (f k b)) (h : Leaves t i k) :
    Leaves t i (l.foldl f k) := by
  induction l generalizing k with
  | nil => exact h
  | cons b l ih =>
    exact ih (fun k hk c hc => hf k hk c (List.mem_cons_of_mem b hc)) (hf k h b List.mem_cons_self)

/-! ## Open files -/

/-- The last end of a kind wakes whom the pipe knows. -/
theorem fdUnshare (h : Leaves t i k) (f : OFile) : Leaves t i (k.fdUnshare f) := by
  by_cases hf : f.n.type = .fifo ∧ f.n.internal ≠ 0
  · rw [fdUnshare_eq k hf.1 hf.2]
    have hp := h.place f.n.internal
    rcases unshared_place k (k.pipes f.n.internal) (f.flags &&& kPipeWriteEnd ≠ 0) with
      ⟨h₁, h₂, -⟩ | ⟨h₁, h₂, h₃, -⟩
    · rw [h₁]
      refine h.setPipes fun a d => ?_
      rw [Function.update_apply]
      split
      · rw [h₂]
        exact hp d
      · exact h.place a d
    · rw [h₁]
      refine (h.elim_unblock (hp _)).setPipes fun a d => ?_
      rw [Function.update_apply]
      split
      · rcases Bool.eq_or_eq_not d (sideOf (f.flags &&& kPipeWriteEnd ≠ 0)) with rfl | rfl
        · rw [h₂]
          exact fun hn => absurd hn.symm (Option.some_ne_none i)
        · rw [h₃]
          exact hp _
      · exact h.place a d
  · rwa [fdUnshare_of_not k hf]

theorem closeIn (h : Leaves t i k) (j : Fin kMaxTask) (fd : Fin kMaxFd) :
    Leaves t i (k.closeIn j fd) := by
  have h₁ : Leaves t i (((k.tasks j).fd fd).elim k k.fdUnshare) := by
    cases (k.tasks j).fd fd with
    | none => exact h
    | some f => exact h.fdUnshare f
  exact h₁.setTask (.of_same rfl rfl rfl rfl rfl)

theorem fdCloseAll (h : Leaves t i k) (j : Fin kMaxTask) : Leaves t i (k.fdCloseAll j) := by
  refine foldl (fun k hk fd _ => ?_) h
  split
  · exact hk.closeIn j fd
  · exact hk

/-! ## The end of a process -/

/-- A child that ends wakes a parent that waits. -/
theorem announce (h : Leaves t i k) (hw : t.waiting = false) (j : Fin kMaxTask) :
    Leaves t i (k.announce j) := by
  rw [Kernel.announce]
  cases k.find (k.tasks j).ppid with
  | none => exact h
  | some p =>
    dsimp only
    split
    · exact h
    · split
      · exact h
      · generalize hn : Note.mk _ _ = note
        have hset : Leaves t i
            (k.setTask p { k.tasks p with done := (k.tasks p).done ++ [note] }) :=
          h.setTask (.of_same rfl rfl rfl rfl rfl)
        split
        · next hp =>
          refine hset.unblock ?_
          rintro rfl
          rw [h.spared.waiting, hw] at hp
          exact Bool.false_ne_true hp
        · exact hset

theorem bury (h : Leaves t i k) (hw : t.waiting = false) (j : Fin kMaxTask) :
    Leaves t i (k.bury j) := by
  set t' : Task := { k.tasks j with
    exitCode := 128 + (k.tasks j).signal, state := .zombie } with ht
  have he : k.bury j = ((k.setTask j t').fdCloseAll j).announce j := rfl
  rw [he]
  have h₁ : Leaves t i (k.setTask j t') := h.setTask (.of_dead rfl rfl rfl (Or.inr (Or.inl rfl)))
  exact (h₁.fdCloseAll j).announce hw j

theorem exit (h : Leaves t i k) (hw : t.waiting = false) (hc : k.current ≠ i) (code : UInt32) :
    Leaves t i (k.exit code) := by
  set t' : Task := { k.tasks k.current with
    exitCode := code, state := .zombie
    signal := if (k.tasks k.current).state ≠ .killed then kSigNone
      else (k.tasks k.current).signal } with ht
  have he : k.exit code = (((k.setTask k.current t').fdCloseAll k.current).announce
      k.current).setTask k.current { (((k.setTask k.current t').fdCloseAll k.current).announce
        k.current).tasks k.current with inSyscall := true } := rfl
  rw [he]
  have h₁ : Leaves t i (k.setTask k.current t') := h.setTask_ne t' hc
  exact ((h₁.fdCloseAll _).announce hw _).setTask_ne _ hc

theorem killUserFault (h : Leaves t i k) (hw : t.waiting = false) (hc : k.current ≠ i) (intNo : ℕ) :
    Leaves t i (k.killUserFault intNo) := by
  have h₁ : Leaves t i (k.setTask k.current { k.tasks k.current with
      signal := faultSignal intNo, state := .killed }) := h.setTask_ne _ hc
  exact h₁.exit hw hc 128

/-! ## Signals and keys -/

/-- A signal is pending, or deadly. -/
theorem signalTask (h : Leaves t i k) (pid : ℕ) {sig : UInt32}
    (hs : sig ≠ 0 ∨ ¬Handled (k.tasks i) 0) : Leaves t i (k.signalTask pid sig).2 := by
  rw [Kernel.signalTask]
  split
  · exact h
  · next j _ =>
    dsimp only
    split
    · exact h
    · split
      · next hh =>
        by_cases hj : j = i
        · subst hj
          have hsig : sig ≠ 0 := by
            rcases hs with hs | hs
            · exact hs
            · rintro rfl
              exact hs hh
          have hset : Leaves t j (k.setTask j { k.tasks j with sigPending := sig }) :=
            h.setTask ⟨rfl, rfl, fun _ => hsig, fun hq => absurd hq.1 hsig⟩
          split
          · refine hset.unblock_signalled ?_ j
            rwa [setTask_tasks, Function.update_self]
          · exact hset
        · have hset := h.setTask_ne { k.tasks j with sigPending := sig } hj
          split
          · exact hset.unblock hj
          · exact hset
      · exact h.setTask (.of_dead rfl rfl rfl (Or.inr (Or.inr rfl)))

theorem kill (h : Leaves t i k) (hw : t.waiting = false) (hc : k.current ≠ i)
    (pid : ℕ) {sig : UInt32}
    (hs : sig ≠ 0 ∨ ¬Handled (k.tasks i) 0) : Leaves t i (k.kill pid sig).2 := by
  have h₁ := h.signalTask pid hs
  have hcur := (calm_signalTask k pid sig).current
  rw [Kernel.kill]
  generalize k.signalTask pid sig = r at h₁ hcur ⊢
  obtain ⟨ok, k₁⟩ := r
  dsimp only at h₁ hcur ⊢
  split
  · exact h₁
  · split
    · exact h₁.exit hw (hcur ▸ hc) _
    · exact h₁

theorem ttyInput (h : Leaves t i k) (owner : ℕ) (sigs : Bool) (c : UInt8) :
    Leaves t i (ttyInput owner sigs k c) := by
  rw [Kernel.ttyInput]
  split
  · dsimp only
    generalize (if owner ≠ 0 then owner else (k.tasks k.current).pid) = pid
    split
    · exact h.signalTask pid (Or.inl (by decide))
    · exact h
  · exact h

theorem kbdWake (h : Leaves t i k) {wait : List (Fin kMaxTask)} (hi : i ∉ wait) :
    Leaves t i (k.kbdWake wait) :=
  foldl (fun _ hk _ hj => hk.unblock fun he => hi (he ▸ hj)) h

theorem ttyDrain {w : Machine H} (h : Leaves t i w.k) {keys : List UInt8} (hi : i ∉ w.kbdWait) :
    Leaves t i (w.ttyDrain keys).k := by
  rw [Machine.ttyDrain]
  split
  · exact h
  · have h₁ : Leaves t i (keys.foldl (Kernel.ttyInput w.owner w.sigs) w.k) :=
      foldl (fun _ hk c _ => hk.ttyInput w.owner w.sigs c) h
    exact h₁.kbdWake hi

/-! ## Who runs -/

/-- The task that is switched to runs, and what was pending stays so because it is in a call. -/
theorem switchTo (h : Leaves t i k) (hin : t.inSyscall = true)
    (hd : j = i → (k.tasks i).sigPending ≠ 0 ∨ (k.tasks i).state = .ready) :
    Leaves t i (k.switchTo j) := by
  set k₁ := if (k.tasks k.current).state = .running then
    k.setTask k.current { k.tasks k.current with state := .ready } else k with hk₁
  set t₁ : Task := { k₁.tasks j with state := .running, quantum := kQuantum } with ht₁
  set t₂ := if !t₁.inSyscall && t₁.regs.fromUser then delivered t₁ else t₁ with ht₂
  have he : k.switchTo j
      = { (k₁.setMmu (k₁.mmu.spaceSwitch t₂.sp)).setTask j t₂ with current := j } := rfl
  have h₁ : Leaves t i k₁ ∧ (j = i → (k₁.tasks i).sigPending ≠ 0 ∨
      (k₁.tasks i).state = .ready) := by
    rw [hk₁]
    split
    · next hr =>
      refine ⟨h.setTask ⟨rfl, rfl, id, fun hq => ⟨⟨hq.1, Or.inr (Or.inl hr)⟩, rfl, ?_⟩⟩,
        fun hj => ?_⟩
      · rw [hr]
        exact iff_of_false nofun nofun
      · rw [setTask_tasks, Function.update_apply]
        split
        · next hi => exact Or.inr rfl
        · exact hd hj
    · exact ⟨h, hd⟩
  rw [he]
  suffices hl : Leaves t i ((k₁.setMmu (k₁.mmu.spaceSwitch t₂.sp)).setTask j t₂) from
    ⟨hl.spared, hl.place⟩
  by_cases hj : j = i
  · subst hj
    have hno : t₂ = t₁ := by
      rw [ht₂, if_neg]
      rw [ht₁, h₁.1.spared.inSyscall, hin]
      exact Bool.false_ne_true
    rw [hno]
    refine (h₁.1.setMmu _).setTask ⟨rfl, rfl, id, fun hq => ?_⟩
    rcases h₁.2 rfl with hs | hr
    · exact absurd hq.1 hs
    · refine ⟨⟨hq.1, Or.inl hr⟩, rfl, iff_of_false nofun fun hb => ?_⟩
      rw [setMmu_tasks, hr] at hb
      exact absurd hb nofun
  · exact (h₁.1.setMmu _).setTask_ne _ hj

variable [PageAlloc H]

theorem destroy (h : Leaves t i k) (j : Fin kMaxTask) : Leaves t i (k.destroy j) := by
  rw [Kernel.destroy]
  split
  · exact h
  · exact (h.setMmu _).setTask (.of_dead rfl rfl rfl (Or.inl rfl))

theorem reap (h : Leaves t i k) (hw : t.waiting = false) (hr : k.reap = some k') :
    Leaves t i k' := by
  rw [Kernel.reap] at hr
  split at hr
  · exact absurd hr.symm (Option.some_ne_none k')
  · rw [← Option.some.inj hr]
    refine foldl (fun k hk j _ => ?_) h
    have hb : Leaves t i (if (k.tasks j).state = .killed then k.bury j else k) := by
      split
      · exact hk.bury hw j
      · exact hk
    rw [reapSlot]
    generalize (if (k.tasks j).state = .killed then k.bury j else k) = k₁ at hb ⊢
    split
    · exact hb
    · exact hb.destroy j

/-- `preempt` from where it looks for another task. -/
theorem preempt_rest {k₁ : Kernel H} (h₁ : Leaves t i k₁) (hw : t.waiting = false)
    (hin : t.inSyscall = true) {b : Bool}
    (hk' : (k₁.reap.map fun k =>
      match k.pick with
      | none => (false, k)
      | some dst =>
        if dst = k.current then (false, k) else (true, k.switchTo dst)) = some (b, k')) :
    Leaves t i k' := by
  obtain ⟨k₂, hk₂, he⟩ := Option.map_eq_some_iff.mp hk'
  have h₂ := h₁.reap hw hk₂
  cases hpick : k₂.pick with
  | none =>
    rw [hpick] at he
    exact (Prod.mk.inj he).2 ▸ h₂
  | some dst =>
    rw [hpick] at he
    dsimp only at he
    split at he
    · exact (Prod.mk.inj he).2 ▸ h₂
    · exact (Prod.mk.inj he).2 ▸ h₂.switchTo hin fun hd => Or.inr (hd ▸ pick_ready hpick)

/-- **`preempt`**, of a task that is not in user mode if it is this one. -/
theorem preempt (h : Leaves t i k) (hw : t.waiting = false) (hin : t.inSyscall = true)
    {r : Registers} (hr : k.current = i → r.fromUser = false) {b : Bool}
    (hp : k.preempt r = some (b, k')) : Leaves t i k' := by
  rw [Kernel.preempt] at hp
  dsimp only at hp
  split at hp
  · exact h.preempt_rest hw hin hp
  · split at hp
    · exact (Prod.mk.inj (Option.some.inj hp)).2 ▸ h
    · next hu =>
      have hc : k.current ≠ i := fun hc => hu (by rw [hr hc]; rfl)
      split at hp
      · exact (Prod.mk.inj (Option.some.inj hp)).2 ▸ h.setTask_ne _ hc
      · exact (h.setTask_ne _ hc).preempt_rest hw hin hp

end Leaves

end Kernel

end Aurisys
