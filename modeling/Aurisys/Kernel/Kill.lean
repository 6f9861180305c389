import Aurisys.Kernel.Table

/-!
# Who dies of a signal

`signal_task` makes a choice: a signal that the target has a handler for is recorded, any other ends
it. `kill` calls it, and goes on to end the process that made the call if this is the target,
whatever the choice was.

## Main definitions

* `Task.Alive`
* `KillsRight` — the target ends if and only if it does not handle the signal

## Main results

* `killsRight_iff` — this is so unless a process sends itself a signal that it handles
-/

namespace Aurisys

/-- There is a process, and it has not ended. -/
def Task.Alive (t : Task) : Prop := t.state ≠ .free ∧ t.state ≠ .zombie ∧ t.state ≠ .killed

namespace Kernel

variable {H : Type}

/-- What a signal does to its target: recorded where there is a handler for it, deadly where not. -/
structure KillsRight (k : Kernel H) (pid : ℕ) (sig : UInt32) (i : Fin kMaxTask) : Prop where
  /-- With a handler it lives, and the signal is recorded. -/
  caught : Handled (k.tasks i) sig →
    ((k.kill pid sig).2.tasks i).Alive ∧ ((k.kill pid sig).2.tasks i).sigPending = sig
  /-- It ends if and only if there is none. -/
  ended : ¬((k.kill pid sig).2.tasks i).Alive ↔ ¬Handled (k.tasks i) sig

variable {k k' k'' : Kernel H} {i j : Fin kMaxTask} {pid : ℕ} {sig : UInt32}

/-- A task that only stops being blocked stays alive. -/
theorem Wakes.alive (h : Wakes k k') (hi : (k.tasks i).Alive) : (k'.tasks i).Alive := by
  rcases h.state i with he | ⟨-, he⟩
  · rwa [Task.Alive, he]
  · rw [Task.Alive, he]
    exact ⟨nofun, nofun, nofun⟩

theorem Dies.alive (h : Dies k i k') (hj : j ≠ i) (ha : (k.tasks j).Alive) :
    (k'.tasks j).Alive := by
  rcases h.other hj with he | ⟨-, he⟩
  · rwa [Task.Alive, he]
  · rw [Task.Alive, he]
    exact ⟨nofun, nofun, nofun⟩

/-! ## What is pending -/

/-- What is pending stays as it is. -/
def SamePending (k k' : Kernel H) : Prop := ∀ i, (k'.tasks i).sigPending = (k.tasks i).sigPending

namespace SamePending

theorem refl (k : Kernel H) : SamePending k k := fun _ => rfl

theorem trans (h : SamePending k k') (h' : SamePending k' k'') : SamePending k k'' :=
  fun i => (h' i).trans (h i)

theorem setTask {t : Task} (h : t.sigPending = (k.tasks i).sigPending) :
    SamePending k (k.setTask i t) := by
  intro j
  rw [setTask_tasks, Function.update_apply]
  split
  · next hj => rw [hj, h]
  · rfl

theorem unblock (k : Kernel H) (i : Fin kMaxTask) : SamePending k (k.unblock i) := by
  rw [Kernel.unblock]
  split <;> exact setTask rfl

theorem elim_unblock (k : Kernel H) (o : Option (Fin kMaxTask)) :
    SamePending k (o.elim k k.unblock) := by
  cases o with
  | none => exact refl k
  | some i => exact unblock k i

theorem fdUnshare (k : Kernel H) (f : OFile) : SamePending k (k.fdUnshare f) := by
  rw [Kernel.fdUnshare]
  split
  · exact refl k
  · exact (elim_unblock k _).trans (elim_unblock _ _)

theorem closeIn (k : Kernel H) (i : Fin kMaxTask) (fd : Fin kMaxFd) :
    SamePending k (k.closeIn i fd) := by
  have h : SamePending k (((k.tasks i).fd fd).elim k k.fdUnshare) := by
    cases (k.tasks i).fd fd with
    | none => exact refl k
    | some f => exact fdUnshare k f
  exact h.trans (setTask rfl)

theorem fdCloseAll (k : Kernel H) (i : Fin kMaxTask) : SamePending k (k.fdCloseAll i) := by
  rw [Kernel.fdCloseAll]
  generalize List.finRange kMaxFd = l
  induction l generalizing k with
  | nil => exact refl k
  | cons fd l ih =>
    refine SamePending.trans ?_ (ih _)
    dsimp only
    split
    · exact closeIn k i fd
    · exact refl k

theorem announce (k : Kernel H) (i : Fin kMaxTask) : SamePending k (k.announce i) := by
  rw [Kernel.announce]
  dsimp only
  split
  · exact refl k
  · split
    · exact refl k
    · split
      · exact refl k
      · split
        · refine SamePending.trans ?_ (unblock _ _)
          exact setTask rfl
        · exact setTask rfl

theorem exit (k : Kernel H) (code : UInt32) : SamePending k (k.exit code) := by
  set t : Task := { k.tasks k.current with
    exitCode := code, state := .zombie
    signal := if (k.tasks k.current).state ≠ .killed then kSigNone
      else (k.tasks k.current).signal } with ht
  have he : k.exit code = (((k.setTask k.current t).fdCloseAll k.current).announce
      k.current).setTask k.current { (((k.setTask k.current t).fdCloseAll k.current).announce
        k.current).tasks k.current with inSyscall := true } := rfl
  rw [he]
  have h₁ : SamePending k (k.setTask k.current t) := setTask rfl
  exact ((h₁.trans (fdCloseAll _ _)).trans (announce _ _)).trans (setTask rfl)

end SamePending

/-! ## The signal -/

theorem signalTask_caught (hfind : k.find pid = some i) (hlive : (k.tasks i).Alive)
    (hh : Handled (k.tasks i) sig) : (k.signalTask pid sig).1 = true ∧
      (k.signalTask pid sig).2.current = k.current ∧ ((k.signalTask pid sig).2.tasks i).Alive ∧
      ((k.signalTask pid sig).2.tasks i).sigPending = sig ∧
      ∀ j, ((k.signalTask pid sig).2.tasks j).pid = (k.tasks j).pid := by
  rw [signalTask, hfind]
  dsimp only
  rw [if_neg (not_or.mpr ⟨hlive.2.1, hlive.2.2⟩), if_pos hh]
  dsimp only
  have hself : (k.setTask i { k.tasks i with sigPending := sig }).tasks i
      = { k.tasks i with sigPending := sig } := by
    rw [setTask_tasks, Function.update_self]
  have hw : Wakes k (k.setTask i { k.tasks i with sigPending := sig }) :=
    .setTask ⟨rfl, rfl, rfl, rfl⟩
  split
  · have hw' := wakes_unblock (k.setTask i { k.tasks i with sigPending := sig }) i
    refine ⟨rfl, hw'.current, (hw.trans hw').alive hlive, ?_, (hw.trans hw').pid⟩
    rw [SamePending.unblock, hself]
  · exact ⟨rfl, rfl, hw.alive hlive, by rw [hself], hw.pid⟩

theorem signalTask_deadly (hfind : k.find pid = some i) (hlive : (k.tasks i).Alive)
    (hh : ¬Handled (k.tasks i) sig) : k.signalTask pid sig =
      (true, k.setTask i { k.tasks i with signal := sig, state := .killed }) := by
  rw [signalTask, hfind]
  dsimp only
  rw [if_neg (not_or.mpr ⟨hlive.2.1, hlive.2.2⟩), if_neg hh]

/-- **`kill` does to a living target what the signal says** unless the target sends it to itself and
handles it. -/
theorem killsRight_iff (hfind : k.find pid = some i) (hlive : (k.tasks i).Alive) :
    KillsRight k pid sig i ↔ (Handled (k.tasks i) sig → i ≠ k.current) := by
  have hpid : (k.tasks i).pid = pid := by
    have := List.find?_some hfind
    simp only [ne_eq, decide_eq_true_eq] at this
    exact this.2
  by_cases hh : Handled (k.tasks i) sig
  · obtain ⟨hok, hcur, halive, hsig, hpids⟩ := signalTask_caught hfind hlive hh
    generalize hs : k.signalTask pid sig = r at hok hcur halive hsig hpids
    obtain ⟨ok, k₁⟩ := r
    dsimp only at hok hcur halive hsig hpids
    subst hok
    have hkill : k.kill pid sig =
        if (k₁.tasks k₁.current).pid = pid then (true, k₁.exit (128 + sig)) else (true, k₁) := by
      rw [kill, hs]
      rfl
    constructor
    · rintro ⟨hcaught, -⟩ - rfl
      have hself : (k₁.tasks k₁.current).pid = pid := by rw [hcur, hpids, hpid]
      rw [hkill, if_pos hself] at hcaught
      have hd := (dies_exit k₁ (128 + sig)).self
      rw [hcur] at hd
      exact (hcaught hh).1.2.1 hd
    · intro hne
      have hne := hne hh
      have hafter : ((k.kill pid sig).2.tasks i).Alive ∧
          ((k.kill pid sig).2.tasks i).sigPending = sig := by
        rw [hkill]
        split
        · exact ⟨(dies_exit k₁ (128 + sig)).alive (hcur.symm ▸ hne) halive,
            (SamePending.exit k₁ _ i).trans hsig⟩
        · exact ⟨halive, hsig⟩
      exact ⟨fun _ => hafter, iff_of_false (not_not_intro hafter.1) (not_not_intro hh)⟩
  · refine iff_of_true ⟨fun h => absurd h hh, iff_of_true (fun ha => ?_) hh⟩ fun h => absurd h hh
    rw [kill, signalTask_deadly hfind hlive hh] at ha
    dsimp only at ha
    rw [Bool.not_true, if_neg Bool.false_ne_true] at ha
    have hkilled : ((k.setTask i { k.tasks i with signal := sig, state := .killed }).tasks i).state
        = .killed := by rw [setTask_tasks, Function.update_self]
    split at ha
    · by_cases hi : i = k.current
      · have hd := (dies_exit (k.setTask i { k.tasks i with signal := sig, state := .killed })
          (128 + sig)).self
        rw [setTask_current, ← hi] at hd
        exact ha.2.1 hd
      · -- somebody else has the number of the target
        have hd := (dies_exit (k.setTask i { k.tasks i with signal := sig, state := .killed })
          (128 + sig)).other (j := i) hi
        rcases hd with hd | ⟨hd, -⟩
        · exact ha.2.2 (hd.trans hkilled)
        · rw [hkilled] at hd
          exact absurd hd (by decide)
    · exact ha.2.2 hkilled

/-- The machine after startup, where the first process handles signal 10. -/
def catching : Kernel Pages.Bump :=
  Machine.startup.k.setTask 0 { Machine.startup.k.tasks 0 with sigHandlers := fun _ => 0x40000500 }

/-- The same, with a second process that sends. -/
def catchingOther : Kernel Pages.Bump :=
  { catching.setTask 1 { Task.zero with pid := 2, state := .running } with current := 1 }

theorem killsRight_other : KillsRight catchingOther 1 10 0 ↔
    (Handled (catchingOther.tasks 0) 10 → (0 : Fin kMaxTask) ≠ catchingOther.current) :=
  killsRight_iff (by decide +kernel) ⟨nofun, nofun, nofun⟩

/-- The first process sends itself signal 10, and ends. -/
theorem catching_dies : catching.find 1 = some 0 ∧ Handled (catching.tasks 0) 10 ∧
    ((catching.kill 1 10).2.tasks 0).state = .zombie := by
  decide +kernel

end Kernel

end Aurisys
