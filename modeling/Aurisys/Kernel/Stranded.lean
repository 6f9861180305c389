import Aurisys.Kernel.PipeEnds

/-!
# Pipes that nobody can close

`pipe` takes a slot of the pipe table before it looks for two descriptors. Where there is no more
than one it returns, and the slot stays taken: there is no descriptor for it, and only the close of
a descriptor gives a slot back.

Elsewhere no slot is lost. A pipe counts no more readers and writers than there are descriptors, and
one that counts none is not open. So an open pipe has a descriptor.

## Main definitions

* `Strands` — a call of `pipe` takes a slot for good
* `Bounded` — a pipe counts no end too many
* `PipeRuns` — what processes do with descriptors, calls of `pipe` that fail among it

## Main results

* `pipe_unchanged_iff`
* `pipe_takes_nothing`
-/

namespace Aurisys

open Paging Handles

namespace Kernel

variable {H : Type} {k k' : Kernel H} {i : Fin kMaxTask} {a : ℕ}

/-- The slots that are taken. -/
def takenPipes (k : Kernel H) : Finset (Fin kMaxPipe) :=
  Finset.univ.filter fun p => (k.pipes (pipeAddr p)).opened = true

/-- As many slots are taken, and the descriptors are the same. -/
def TakesNothing (k k' : Kernel H) : Prop :=
  k'.takenPipes.card = k.takenPipes.card ∧ ∀ i, (k'.tasks i).fd = (k.tasks i).fd

/-- There is a slot, and there are not two descriptors. -/
def Strands (k : Kernel H) : Prop :=
  k.freePipe.isSome ∧ (freeFds (k.tasks k.current)).length < 2

/-! ## One call -/

/-- **When a call that fails takes nothing.** -/
theorem pipe_unchanged_iff (k : Kernel H) :
    (k.pipe.1 = none → TakesNothing k k.pipe.2) ↔ ¬k.Strands := by
  rw [pipe, Strands]
  cases hp : k.freePipe with
  | none => exact iff_of_true (fun _ => ⟨rfl, fun _ => rfl⟩) fun h => absurd h.1 (by decide)
  | some p =>
    dsimp only
    set k₁ := k.setPipes (Function.update k.pipes (pipeAddr p) ⟨1, 1, none, none, true⟩) with hk₁
    have hfds : freeFds (k₁.tasks k₁.current) = freeFds (k.tasks k.current) := rfl
    rw [hfds]
    -- The slot that is taken was free before.
    have htaken : k₁.takenPipes = insert p k.takenPipes := by
      ext q
      rw [takenPipes, takenPipes, hk₁, setPipes_pipes]
      by_cases hq : q = p
      · subst hq
        simp
      · have hne : pipeAddr q ≠ pipeAddr p := fun h => hq (Fin.ext (Nat.succ.inj h))
        simp [Function.update_of_ne hne, hq]
    have hnew : p ∉ k.takenPipes := by
      rw [takenPipes, Finset.mem_filter, freePipe_eq_some hp]
      simp
    have hlost : ¬TakesNothing k k₁ := fun h => by
      have hcard := h.1
      rw [htaken, Finset.card_insert_of_notMem hnew] at hcard
      omega
    rcases hl : freeFds (k.tasks k.current) with _ | ⟨r, _ | ⟨w, l⟩⟩
    · exact iff_of_false (fun h => hlost (h rfl)) (not_not_intro ⟨rfl, Nat.zero_lt_two⟩)
    · exact iff_of_false (fun h => hlost (h rfl)) (not_not_intro ⟨rfl, Nat.one_lt_two⟩)
    · exact iff_of_true (fun h => absurd h (Option.some_ne_none _)) fun h => by
        have := h.2
        rw [List.length_cons, List.length_cons] at this
        omega

/-! ## The counts -/

/-- A pipe counts no more ends than there are descriptors, and an open one counts some. -/
structure Bounded (k : Kernel H) : Prop where
  readers : ∀ a, a ≠ 0 → (k.pipes a).readers ≤ k.holders a false
  writers : ∀ a, a ≠ 0 → (k.pipes a).writers ≤ k.holders a true
  opened : ∀ a, a ≠ 0 → (k.pipes a).opened = true → 0 < (k.pipes a).readers + (k.pipes a).writers

/-- An open pipe has a descriptor. -/
theorem Bounded.held (h : Bounded k) (ha : a ≠ 0) (ho : (k.pipes a).opened = true) : k.Held a := by
  have h1 := h.readers a ha
  have h2 := h.writers a ha
  have h3 := h.opened a ha ho
  exact held_iff.mpr (by omega)

theorem Bounded.same (h : Bounded k) (hs : SameFds k k') : Bounded k' where
  readers a ha := by rw [hs.readers, hs.holders]; exact h.readers a ha
  writers a ha := by rw [hs.writers, hs.holders]; exact h.writers a ha
  opened a ha := by rw [hs.readers, hs.writers, hs.opened]; exact h.opened a ha

theorem shutIdle_opened {p : Pipe} (h : (shutIdle p).opened = true) :
    p.opened = true ∧ 0 < (shutIdle p).readers + (shutIdle p).writers := by
  rw [shutIdle] at h ⊢
  split at h
  · cases h
  · next hne =>
    rw [if_neg hne]
    exact ⟨h, by omega⟩

/-- A pipe that is open once an end has gone was open, and still counts one. -/
theorem fdUnshare_opened (f : OFile) (ha : a ≠ 0)
    (hc : (k.pipes a).opened = true → 0 < (k.pipes a).readers + (k.pipes a).writers)
    (ho : ((k.fdUnshare f).pipes a).opened = true) :
    0 < ((k.fdUnshare f).pipes a).readers + ((k.fdUnshare f).pipes a).writers := by
  by_cases hf : f.n.type = .fifo ∧ f.n.internal ≠ 0
  · rw [fdUnshare_eq k hf.1 hf.2, setPipes_pipes] at ho ⊢
    by_cases hfa : a = f.n.internal
    · subst hfa
      rw [Function.update_self, unshared] at ho ⊢
      exact (shutIdle_opened ho).2
    · rw [Function.update_of_ne hfa] at ho ⊢
      exact hc ho
  · rw [fdUnshare_of_not k hf] at ho ⊢
    exact hc ho

theorem Bounded.closeIn (h : Bounded k) (i : Fin kMaxTask) (fd : Fin kMaxFd) :
    Bounded (k.closeIn i fd) := by
  have hclose : (k.closeIn i fd).pipes = (((k.tasks i).fd fd).elim k k.fdUnshare).pipes := rfl
  have hpipe : ∀ a, a ≠ 0 → ((k.closeIn i fd).pipes a).readers
        = (k.pipes a).readers - one (OFile.isEnd a false) ((k.tasks i).fd fd) ∧
      ((k.closeIn i fd).pipes a).writers
        = (k.pipes a).writers - one (OFile.isEnd a true) ((k.tasks i).fd fd) := by
    intro a ha
    rw [hclose]
    cases (k.tasks i).fd fd with
    | none => exact ⟨rfl, rfl⟩
    | some f => exact ⟨(fdUnshare_apply k f ha).1, (fdUnshare_apply k f ha).2.1⟩
  constructor
  · intro a ha
    have h1 := h.readers a ha
    have h2 := holders_closeIn k i fd a false
    have h3 := (hpipe a ha).1
    omega
  · intro a ha
    have h1 := h.writers a ha
    have h2 := holders_closeIn k i fd a true
    have h3 := (hpipe a ha).2
    omega
  · intro a ha
    rw [hclose]
    cases (k.tasks i).fd fd with
    | none => exact h.opened a ha
    | some f => exact fdUnshare_opened f ha (h.opened a ha)

theorem Bounded.putFd (h : Bounded k) {fd : Fin kMaxFd} {f : Option OFile}
    (hfree : (k.tasks i).fd fd = none) : Bounded (k.putFd i fd f) := by
  have hhold : ∀ a w, (k.putFd i fd f).holders a w = k.holders a w + one (OFile.isEnd a w) f :=
    fun a w => by
      have := holders_setFile k i fd f a w
      rwa [hfree, one_none, add_zero] at this
  have hpipe : ∀ a, a ≠ 0 → (k.putFd i fd f).pipes a = { k.pipes a with
      readers := (k.pipes a).readers + one (OFile.isEnd a false) f
      writers := (k.pipes a).writers + one (OFile.isEnd a true) f } := by
    intro a ha
    cases f with
    | none => rfl
    | some g => exact fdShare_apply k.pipes g ha
  constructor
  · intro a ha
    rw [hpipe a ha, hhold]
    exact Nat.add_le_add_right (h.readers a ha) _
  · intro a ha
    rw [hpipe a ha, hhold]
    exact Nat.add_le_add_right (h.writers a ha) _
  · intro a ha ho
    rw [hpipe a ha] at ho ⊢
    have := h.opened a ha ho
    dsimp only
    omega

theorem Bounded.handDown (h : Bounded k) {slot : Fin kMaxTask} {t : Task}
    (hrow : (k.tasks slot).fd = fun _ => none) :
    Bounded ((k.setTask slot t).setPipes (fdShareAll k.pipes t.fd)) := by
  have hhold := holders_handDown (t := t) hrow
  have hpipe := fun a (ha : a ≠ 0) => fdShareAll_apply k.pipes t.fd ha
  constructor
  · intro a ha
    rw [hhold, setPipes_pipes, hpipe a ha]
    exact Nat.add_le_add_right (h.readers a ha) _
  · intro a ha
    rw [hhold, setPipes_pipes, hpipe a ha]
    exact Nat.add_le_add_right (h.writers a ha) _
  · intro a ha ho
    rw [setPipes_pipes, hpipe a ha] at ho ⊢
    have := h.opened a ha ho
    dsimp only
    omega

theorem stands_bounded : Stands (Bounded (H := H)) where
  same hs h := h.same hs
  closeIn i fd h := h.closeIn i fd
  putFd hfree _ h := h.putFd hfree
  handDown hrow _ h := h.handDown hrow

/-- **`pipe`**, when it succeeds. The slot may have a descriptor, and counts no end too many even
so. -/
theorem Upheld.pipe (h : Upheld Bounded k) (hc : ¬(k.tasks k.current).state.Ended)
    (hok : k.pipe.1.isSome) : Upheld Bounded k.pipe.2 := by
  obtain ⟨p, hp, hpipes, hhold, hstate, hfd⟩ := pipe_effect hok
  constructor
  · constructor
    · intro a ha
      rw [hhold, hpipes]
      by_cases hpa : pipeAddr p = a
      · subst hpa
        rw [Function.update_self]
        simp
      · rw [Function.update_of_ne (Ne.symm hpa)]
        exact (h.inv.readers a ha).trans ((Nat.le_add_right _ _).trans (Nat.le_add_right _ _))
    · intro a ha
      rw [hhold, hpipes]
      by_cases hpa : pipeAddr p = a
      · subst hpa
        rw [Function.update_self]
        simp
      · rw [Function.update_of_ne (Ne.symm hpa)]
        exact (h.inv.writers a ha).trans ((Nat.le_add_right _ _).trans (Nat.le_add_right _ _))
    · intro a ha
      rw [hpipes]
      by_cases hpa : pipeAddr p = a
      · subst hpa
        rw [Function.update_self]
        exact fun _ => Nat.zero_lt_two
      · rw [Function.update_of_ne (Ne.symm hpa)]
        exact h.inv.opened a ha
  · intro j hj fd
    rw [hstate] at hj
    have hjc : j ≠ k.current := fun he => hc (he ▸ hj)
    rw [hfd j hjc]
    exact h.shut j hj fd

/-- **`fd_install`**, into a process that is there. -/
theorem Upheld.fdInstall (h : Upheld Bounded k) {into : Fin kMaxTask} {childFd src : ℤ}
    (hi : ¬(k.tasks into).state.Ended) : Upheld Bounded (k.fdInstall into childFd src).2 := by
  rcases fdInstall_eq k into childFd src with he | ⟨child, fd, f, -, -, -, he⟩ <;> rw [he]
  · exact h
  · have hclose := h.closeIn stands_bounded into child
    refine ⟨hclose.inv.putFd ?_, fun j hj fd' => ?_⟩
    · rw [closeIn_fd, if_pos ⟨rfl, rfl⟩]
    · rw [Kernel.putFd, setPipes_tasks] at hj ⊢
      rw [setFile_state] at hj
      have hji : j ≠ into := fun he => hi ((wakes_closeIn k into child).sameEnded _ (he ▸ hj))
      rw [setFile_fd, if_neg hji]
      exact hclose.shut j hj fd'

/-! ## Runs -/

/-- Who may make which call. A call of `pipe` may fail, and a process that was killed may be reaped
while it is the current one. -/
def PipeAllowed (k : Kernel H) : FdOp H → Prop
  | .pipe => ¬(k.tasks k.current).state.Ended
  | .reap => True
  | op => k.FdAllowed op

/-- The call takes no slot for good, and nobody gives descriptors to a process that has ended. -/
def KeepsSlots (k : Kernel H) : FdOp H → Prop
  | .pipe => ¬k.Strands
  | .fdInstall into _ _ => ¬(k.tasks into).state.Ended
  | _ => True

variable [PageAlloc H]

/-- The states that operations lead to, when each is one that `ok` permits. -/
inductive PipeRuns (ok : Kernel H → FdOp H → Prop) (k₀ : Kernel H) : Kernel H → Prop where
  | refl : PipeRuns ok k₀ k₀
  | step {k k' : Kernel H} {op : FdOp H} (hr : PipeRuns ok k₀ k) (ha : k.PipeAllowed op)
      (hs : ok k op) (hst : k.fdStep op = some k') : PipeRuns ok k₀ k'

omit [PageAlloc H] in
/-- A call that fails and takes no slot. -/
theorem pipe_of_not_strands (hs : ¬k.Strands) (hok : k.pipe.1 = none) : k.pipe.2 = k := by
  rw [pipe] at hok ⊢
  cases hp : k.freePipe with
  | none => rfl
  | some p =>
    refine absurd ⟨by rw [hp]; rfl, ?_⟩ hs
    rw [hp] at hok
    rcases hl : freeFds (k.tasks k.current) with _ | ⟨r, _ | ⟨w, l⟩⟩
    · exact Nat.zero_lt_two
    · exact Nat.one_lt_two
    · simp only [setPipes_tasks, setPipes_current, hl] at hok
      cases hok

/-- **One operation.** -/
theorem Upheld.step {op : FdOp H} (h : Upheld Bounded k) (ha : k.PipeAllowed op)
    (hs : k.KeepsSlots op)
    (hst : k.fdStep op = some k') : Upheld Bounded k' := by
  cases op with
  | pipe =>
    obtain rfl := Option.some.inj hst
    cases hok : k.pipe.1 with
    | none => rwa [pipe_of_not_strands hs hok]
    | some ends => exact h.pipe ha (by rw [hok]; rfl)
  | dup old =>
    obtain rfl := Option.some.inj hst
    exact h.dup2 stands_bounded ha old _
  | dup2 old nw =>
    obtain rfl := Option.some.inj hst
    exact h.dup2 stands_bounded ha old nw
  | fdInstall into childFd src =>
    obtain rfl := Option.some.inj hst
    exact h.fdInstall hs
  | fdClose fd =>
    obtain rfl := Option.some.inj hst
    exact h.closeFd stands_bounded fd
  | opens fd f =>
    obtain rfl := Option.some.inj hst
    rw [setFile_eq_putFd k.current fd ha.2.2]
    exact h.putFd stands_bounded ha.1 ha.2.1 fun g hg ht => absurd (Option.some.inj hg ▸ ht) ha.2.2
  | forkUser frame =>
    obtain rfl := Option.some.inj hst
    exact h.forkUser stands_bounded frame
  | create name =>
    obtain rfl := Option.some.inj hst
    exact h.create stands_bounded name
  | exit code =>
    obtain rfl := Option.some.inj hst
    exact h.exit stands_bounded code
  | reap => exact h.reap stands_bounded hst
  | other k₁ =>
    obtain rfl := Option.some.inj hst
    exact h.same stands_bounded ha.1 ha.2

omit [PageAlloc H] in
theorem upheld_boot (m : Mmu H) (kstack : ℕ) (kernCode : UInt32) :
    Upheld Bounded (Machine.boot m kstack kernCode).k :=
  ⟨⟨fun _ _ => Nat.zero_le _, fun _ _ => Nat.zero_le _, nofun⟩, (ends_boot m kstack kernCode).shut⟩

/-- **A run.** -/
theorem upheld_runs {m : Mmu H} {kstack : ℕ} {kernCode : UInt32}
    (hr : PipeRuns KeepsSlots (Machine.boot m kstack kernCode).k k) : Upheld Bounded k := by
  induction hr with
  | refl => exact upheld_boot m kstack kernCode
  | step _ ha hs hst ih => exact ih.step ha hs hst

/-- **A call of `pipe` that fails** takes nothing if and only if there was no slot or there were two
descriptors. Where every call is like that, all slots are free once no descriptor of a pipe is
left. -/
theorem pipe_takes_nothing (m : Mmu H) (kstack : ℕ) (kernCode : UInt32) (k : Kernel H) :
    ((k.pipe.1 = none → TakesNothing k k.pipe.2) ↔ ¬k.Strands) ∧
      (PipeRuns KeepsSlots (Machine.boot m kstack kernCode).k k →
        (∀ p, ¬k.Held (pipeAddr p)) → ∀ p, (k.pipes (pipeAddr p)).opened = false) := by
  refine ⟨pipe_unchanged_iff k, fun hr hclosed p => ?_⟩
  by_contra ho
  exact hclosed p ((upheld_runs hr).inv.held (Nat.succ_ne_zero _) (Bool.not_eq_false _ ▸ ho))

/-- The first process opens a pipe and closes both ends. -/
theorem pipe_takes_nothing_closed :
    ∀ p, (((piped.closeFd 0).closeFd 1).pipes (pipeAddr p)).opened = false := by
  have h₁ : PipeRuns KeepsSlots Machine.settled.k piped :=
    PipeRuns.refl.step (show PipeAllowed _ .pipe from show ¬_ by decide +kernel)
      (show KeepsSlots _ .pipe from show ¬_ by rw [Strands]; decide +kernel) rfl
  have h₂ : PipeRuns KeepsSlots Machine.settled.k (piped.closeFd 0) :=
    h₁.step (show PipeAllowed _ (.fdClose 0) from show ¬_ by decide +kernel) trivial rfl
  have h₃ : PipeRuns KeepsSlots Machine.settled.k ((piped.closeFd 0).closeFd 1) :=
    h₂.step (show PipeAllowed _ (.fdClose 1) from show ¬_ by decide +kernel) trivial rfl
  have hnone : ∀ i fd, ((((piped.closeFd 0).closeFd 1).tasks i).fd fd) = none := by decide +kernel
  refine (pipe_takes_nothing _ _ _ _).2 h₃ fun p hh => ?_
  obtain ⟨i, fd, f, hf, -⟩ := hh
  rw [hnone] at hf
  cases hf

/-- A file, for every descriptor. -/
def full (k : Kernel H) : Kernel H :=
  k.setTask k.current { k.tasks k.current with
    fd := fun _ => some ⟨⟨[0x66], 12, .file, 100, 0, .ext⟩, 0, 0⟩ }

/-- Eight calls with no descriptor free take all slots, and nobody has a descriptor for them. -/
theorem pipe_strands_all :
    (Nat.iterate (fun k => k.pipe.2) 8 (full Machine.settled.k)).takenPipes = Finset.univ ∧
      (full Machine.settled.k).pipe.1 = none ∧
      ¬TakesNothing (full Machine.settled.k) (full Machine.settled.k).pipe.2 := by
  refine ⟨by decide +kernel, by decide +kernel, fun h => ?_⟩
  have hcard := h.1
  revert hcard
  decide +kernel

end Kernel

end Aurisys
