import Aurisys.Kernel.Sched

/-!
# The process table

A process is the slot it is in: its number is the number of the slot and one, as long as it is
there. One task runs at most, and it is the current one.

Almost every operation is *calm*: it sets nothing running, brings no slot into use and leaves the
numbers alone. The few that are not change the current task or one free slot.

## Main definitions

* `Dies` — the end of a process, up to what waking others changes
* `Calm` — the table stays as it is
* `Table` — the invariant

## Main results

* `Table.step`, `process_table`
-/

namespace Aurisys

open Paging

namespace Kernel

variable {H : Type} {k k' k'' : Kernel H} {i j p : Fin kMaxTask}

/-! ## The end of a process -/

/-- What the parent of a process is told. -/
def noteOf (t : Task) : Note := ⟨t.pid, if t.signal ≠ 0 then 128 + t.signal else t.exitCode⟩

/-- The parent has the note, if it is there and has room. -/
def noted (k : Kernel H) (i : Fin kMaxTask) : Kernel H :=
  match k.find (k.tasks i).ppid with
  | none => k
  | some p =>
    if p = i ∨ kMaxTask ≤ (k.tasks p).done.length then k
    else k.setTask p { k.tasks p with done := (k.tasks p).done ++ [noteOf (k.tasks i)] }

/-- **`announce`** leaves a note, and wakes a parent that waits. -/
theorem wakes_announce (k : Kernel H) (i : Fin kMaxTask) : Wakes (k.noted i) (k.announce i) := by
  rw [noted, announce]
  cases k.find (k.tasks i).ppid with
  | none => exact .refl k
  | some p =>
    dsimp only
    by_cases hp : p = i
    · rw [if_pos (Or.inl hp), if_pos hp]
      exact .refl k
    · by_cases hroom : kMaxTask ≤ (k.tasks p).done.length
      · rw [if_pos (Or.inr hroom), if_neg hp, if_pos hroom]
        exact .refl k
      · rw [if_neg (not_or.mpr ⟨hp, hroom⟩), if_neg hp, if_neg hroom]
        split
        · exact wakes_unblock _ p
        · exact .refl _

/-- A note changes nothing but a list of notes. -/
theorem noted_eq (k : Kernel H) (i p : Fin kMaxTask) :
    ((k.noted i).tasks p).pid = (k.tasks p).pid ∧ ((k.noted i).tasks p).ppid = (k.tasks p).ppid ∧
      ((k.noted i).tasks p).state = (k.tasks p).state ∧ (k.noted i).current = k.current := by
  rw [noted]
  split
  · exact ⟨rfl, rfl, rfl, rfl⟩
  · next q _ =>
    split
    · exact ⟨rfl, rfl, rfl, rfl⟩
    · rw [setTask_tasks, setTask_current]
      by_cases hp : p = q
      · subst hp
        rw [Function.update_self]
        exact ⟨rfl, rfl, rfl, rfl⟩
      · rw [Function.update_of_ne hp]
        exact ⟨rfl, rfl, rfl, rfl⟩

/-- The process in slot `i` ends: it is a zombie, its descriptors are closed, and its parent has
been told. -/
def Dies (k : Kernel H) (i : Fin kMaxTask) (k' : Kernel H) : Prop :=
  ∃ t k₁, t.pid = (k.tasks i).pid ∧ t.ppid = (k.tasks i).ppid ∧ t.done = (k.tasks i).done ∧
    t.state = .zombie ∧ Wakes (k.setTask i t) k₁ ∧ Wakes (k₁.noted i) k'

theorem dies_exit (k : Kernel H) (code : UInt32) : Dies k k.current (k.exit code) := by
  set t : Task := { k.tasks k.current with
    exitCode := code, state := .zombie
    signal := if (k.tasks k.current).state ≠ .killed then kSigNone
      else (k.tasks k.current).signal } with ht
  have he : k.exit code = (((k.setTask k.current t).fdCloseAll k.current).announce
      k.current).setTask k.current { (((k.setTask k.current t).fdCloseAll k.current).announce
        k.current).tasks k.current with inSyscall := true } := rfl
  rw [he]
  refine ⟨t, _, rfl, rfl, rfl, rfl, wakes_fdCloseAll _ k.current, ?_⟩
  exact (wakes_announce _ _).trans (.setTask ⟨rfl, rfl, rfl, rfl⟩)

theorem dies_bury (k : Kernel H) (i : Fin kMaxTask) : Dies k i (k.bury i) := by
  set t : Task := { k.tasks i with
    exitCode := 128 + (k.tasks i).signal, state := .zombie } with ht
  have he : k.bury i = ((k.setTask i t).fdCloseAll i).announce i := rfl
  rw [he]
  exact ⟨t, _, rfl, rfl, rfl, rfl, wakes_fdCloseAll _ i, wakes_announce _ i⟩

theorem Dies.current (h : Dies k i k') : k'.current = k.current := by
  obtain ⟨t, k₁, -, -, -, -, h₁, h₂⟩ := h
  rw [h₂.current, (noted_eq k₁ i i).2.2.2, h₁.current, setTask_current]

theorem Dies.pid (h : Dies k i k') (j : Fin kMaxTask) : (k'.tasks j).pid = (k.tasks j).pid := by
  obtain ⟨t, k₁, ht, -, -, -, h₁, h₂⟩ := h
  rw [h₂.pid, (noted_eq k₁ i j).1, h₁.pid, setTask_tasks, Function.update_apply]
  split
  · next hj => rw [hj, ht]
  · rfl

theorem Dies.ppid (h : Dies k i k') (j : Fin kMaxTask) : (k'.tasks j).ppid = (k.tasks j).ppid := by
  obtain ⟨t, k₁, -, ht, -, -, h₁, h₂⟩ := h
  rw [h₂.ppid, (noted_eq k₁ i j).2.1, h₁.ppid, setTask_tasks, Function.update_apply]
  split
  · next hj => rw [hj, ht]
  · rfl

theorem Dies.self (h : Dies k i k') : (k'.tasks i).state = .zombie := by
  obtain ⟨t, k₁, -, -, -, ht, h₁, h₂⟩ := h
  have hz : (k₁.tasks i).state = .zombie := by
    have hset : ((k.setTask i t).tasks i).state = .zombie := by
      rw [setTask_tasks, Function.update_self, ht]
    rcases h₁.state i with h | ⟨h, -⟩
    · rw [h, hset]
    · rw [hset] at h
      cases h
  rcases h₂.state i with h | ⟨h, -⟩
  · rw [h, (noted_eq k₁ i i).2.2.1, hz]
  · rw [(noted_eq k₁ i i).2.2.1, hz] at h
    cases h

/-- Others may wake up. -/
theorem Dies.other (h : Dies k i k') (hj : j ≠ i) : (k'.tasks j).state = (k.tasks j).state ∨
    (k.tasks j).state = .blocked ∧ (k'.tasks j).state = .ready := by
  obtain ⟨t, k₁, -, -, -, -, h₁, h₂⟩ := h
  have hset : ((k.setTask i t).tasks j).state = (k.tasks j).state := by
    rw [setTask_tasks, Function.update_of_ne hj]
  have hw₁ := h₁.state j
  have hw₂ := h₂.state j
  rw [hset] at hw₁
  rw [(noted_eq k₁ i j).2.2.1] at hw₂
  rcases hw₁ with h | ⟨h, h'⟩
  · rwa [h] at hw₂
  · rcases hw₂ with h'' | ⟨h'', -⟩
    · exact Or.inr ⟨h, h''.trans h'⟩
    · rw [h'] at h''
      cases h''

/-! ## Calm changes -/

/-- Nothing starts to run, no slot comes into use, the current task stays in its slot, and the
numbers are as they were. -/
structure Calm (k k' : Kernel H) : Prop where
  current : k'.current = k.current
  pid : ∀ i, (k'.tasks i).pid = (k.tasks i).pid
  ppid : ∀ i, (k'.tasks i).ppid = (k.tasks i).ppid
  /-- Nothing starts to run. -/
  running : ∀ i, (k'.tasks i).state = .running → (k.tasks i).state = .running
  /-- No slot comes into use. -/
  free : ∀ i, (k.tasks i).state = .free → (k'.tasks i).state = .free
  /-- The current task stays in its slot. -/
  stays : (k.tasks k.current).state ≠ .free → (k'.tasks k.current).state ≠ .free

theorem Calm.refl (k : Kernel H) : Calm k k :=
  ⟨rfl, fun _ => rfl, fun _ => rfl, fun _ => id, fun _ => id, id⟩

theorem Calm.trans (h : Calm k k') (h' : Calm k' k'') : Calm k k'' :=
  ⟨h'.current.trans h.current, fun i => (h'.pid i).trans (h.pid i),
    fun i => (h'.ppid i).trans (h.ppid i),
    fun i hi => h.running i (h'.running i hi), fun i hi => h'.free i (h.free i hi), fun hc => by
      have := h'.stays
      rw [h.current] at this
      exact this (h.stays hc)⟩

theorem Calm.foldl {β : Type} {f : Kernel H → β → Kernel H} (h : ∀ k b, Calm k (f k b))
    (k : Kernel H) (l : List β) : Calm k (l.foldl f k) := by
  induction l generalizing k with
  | nil => exact .refl k
  | cons b l ih => exact (h k b).trans (ih _)

theorem Wakes.calm (h : Wakes k k') : Calm k k' := by
  refine ⟨h.current, h.pid, h.ppid, fun i hr => ?_, fun i hf => ?_, fun hc => ?_⟩
  · rcases h.state i with he | ⟨-, he⟩
    · rw [← he, hr]
    · rw [hr] at he
      cases he
  · rcases h.state i with he | ⟨he, -⟩
    · rw [he, hf]
    · rw [hf] at he
      cases he
  · rcases h.state k.current with he | ⟨-, he⟩
    · rwa [he]
    · rw [he]
      exact TaskState.noConfusion

theorem Dies.calm (h : Dies k i k') (hi : (k.tasks i).state ≠ .free) : Calm k k' := by
  refine ⟨h.current, h.pid, h.ppid, fun j hr => ?_, fun j hf => ?_, fun hc => ?_⟩
  · by_cases hj : j = i
    · subst hj
      rw [h.self] at hr
      cases hr
    · rcases h.other hj with he | ⟨-, he⟩
      · rw [← he, hr]
      · rw [hr] at he
        cases he
  · by_cases hj : j = i
    · subst hj
      exact absurd hf hi
    · rcases h.other hj with he | ⟨he, -⟩
      · rw [he, hf]
      · rw [hf] at he
        cases he
  · by_cases hj : k.current = i
    · rw [hj, h.self]
      exact TaskState.noConfusion
    · rcases h.other hj with he | ⟨-, he⟩
      · rwa [he]
      · rw [he]
        exact TaskState.noConfusion

/-- One entry changes, and keeps its number and its place. -/
theorem Calm.setTask {t : Task} (hp : t.pid = (k.tasks i).pid) (hpp : t.ppid = (k.tasks i).ppid)
    (hr : t.state ≠ .running) (hi : (k.tasks i).state ≠ .free) (hf : t.state ≠ .free) :
    Calm k (k.setTask i t) := by
  have htask : ∀ j, (k.setTask i t).tasks j = if j = i then t else k.tasks j := fun j => by
    rw [setTask_tasks, Function.update_apply]
  refine ⟨rfl, fun j => ?_, fun j => ?_, fun j => ?_, fun j => ?_, ?_⟩ <;> rw [htask] <;> split
  · next hj => rw [hj, hp]
  · rfl
  · next hj => rw [hj, hpp]
  · rfl
  · next hj => exact fun h => absurd h hr
  · exact id
  · next hj => exact fun h => absurd (hj ▸ h) hi
  · exact id
  · exact fun _ => hf
  · exact id

theorem find_eq_some {pid : ℕ} (h : k.find pid = some i) :
    (k.tasks i).state ≠ .free ∧ (k.tasks i).pid = pid := by
  simpa using List.find?_some h

/-- **`signal_task`.** -/
theorem calm_signalTask (k : Kernel H) (pid : ℕ) (sig : UInt32) :
    Calm k (k.signalTask pid sig).2 := by
  rw [signalTask]
  split
  · exact .refl k
  · next i hi =>
    have hfree := (find_eq_some hi).1
    dsimp only
    split
    · exact .refl k
    · split
      · have hset : Calm k (k.setTask i { k.tasks i with sigPending := sig }) := by
          refine Wakes.calm ?_
          exact .setTask ⟨rfl, rfl, rfl, rfl⟩
        split
        · exact hset.trans (wakes_unblock _ i).calm
        · exact hset
      · exact .setTask rfl rfl TaskState.noConfusion hfree TaskState.noConfusion

theorem calm_exit (code : UInt32) (hc : (k.tasks k.current).state ≠ .free) :
    Calm k (k.exit code) := (dies_exit k code).calm hc

theorem calm_kill (pid : ℕ) (sig : UInt32) (hc : (k.tasks k.current).state ≠ .free) :
    Calm k (k.kill pid sig).2 := by
  have hs := calm_signalTask k pid sig
  rw [kill]
  generalize k.signalTask pid sig = r at hs ⊢
  obtain ⟨ok, k₁⟩ := r
  dsimp only at hs ⊢
  split
  · exact hs
  · split
    · exact hs.trans (calm_exit _ (hs.current ▸ hs.stays hc))
    · exact hs

theorem calm_killUserFault (intNo : ℕ) (hc : (k.tasks k.current).state ≠ .free) :
    Calm k (k.killUserFault intNo) := by
  have hset : Calm k (k.setTask k.current { k.tasks k.current with
      signal := faultSignal intNo, state := .killed }) :=
    .setTask rfl rfl TaskState.noConfusion hc TaskState.noConfusion
  exact hset.trans (calm_exit _ (hset.stays hc))

theorem calm_purgeNotes (k : Kernel H) (pid : ℕ) : Calm k (k.purgeNotes pid) :=
  ⟨rfl, fun _ => rfl, fun _ => rfl, fun _ => id, fun _ => id, id⟩

theorem calm_ttyInput (owner : ℕ) (sigs : Bool) (k : Kernel H) (c : UInt8) :
    Calm k (ttyInput owner sigs k c) := by
  rw [ttyInput]
  split
  · dsimp only
    generalize (if owner ≠ 0 then owner else (k.tasks k.current).pid) = pid
    split
    · exact calm_signalTask k pid kSigInt
    · exact .refl k
  · exact .refl k

section

variable [PageAlloc H]

/-- A zombie that does not run goes. -/
theorem calm_destroy (hi : i ≠ k.current) : Calm k (k.destroy i) := by
  rw [destroy]
  split
  · exact .refl k
  · refine ⟨rfl, fun j => ?_, fun j => ?_, fun j => ?_, fun j => ?_, ?_⟩ <;>
      rw [setTask_tasks, Function.update_apply] <;> split
    · next hj => rw [hj]
    · rfl
    · next hj => rw [hj]
    · rfl
    · exact fun h => TaskState.noConfusion h
    · exact id
    · exact fun _ => rfl
    · exact id
    · next hj => exact absurd hj.symm hi
    · exact id

theorem calm_reapSlot (k : Kernel H) (i : Fin kMaxTask) : Calm k (k.reapSlot i) := by
  have hb : Calm k (if (k.tasks i).state = .killed then k.bury i else k) := by
    split
    · next h => exact (dies_bury k i).calm (by rw [h]; exact TaskState.noConfusion)
    · exact .refl k
  rw [reapSlot]
  generalize (if (k.tasks i).state = .killed then k.bury i else k) = k₁ at hb ⊢
  split
  · exact hb
  · next h => exact hb.trans (calm_destroy fun he => h (Or.inr he))

/-- **`reap`.** -/
theorem calm_reap (h : k.reap = some k') : Calm k k' := by
  rw [reap] at h
  split at h
  · cases h
  · rw [← Option.some.inj h]
    exact Calm.foldl calm_reapSlot k _

end

/-! ## The invariant -/

/-- A slot in use has its number, and that of a slot for its parent. Only the current task, which is
in one, may run. -/
structure Table (k : Kernel H) : Prop where
  /-- A task has the number of its slot. -/
  pid : ∀ i, (k.tasks i).state ≠ .free → (k.tasks i).pid = i + 1
  /-- The number of its parent is zero or that of a slot. -/
  ppid : ∀ i, (k.tasks i).state ≠ .free → (k.tasks i).ppid ≤ kMaxTask
  /-- Only the current task runs. -/
  running : ∀ i, (k.tasks i).state = .running → i = k.current
  /-- There is a current task. -/
  current : (k.tasks k.current).state ≠ .free

theorem Table.calm (h : Table k) (hc : Calm k k') : Table k' := by
  refine ⟨fun i hi => ?_, fun i hi => ?_, fun i hi => ?_, ?_⟩
  · rw [hc.pid]
    exact h.pid i fun hf => hi (hc.free i hf)
  · rw [hc.ppid]
    exact h.ppid i fun hf => hi (hc.free i hf)
  · rw [hc.current]
    exact h.running i (hc.running i hi)
  · rw [hc.current]
    exact hc.stays h.current

/-- **`find`** finds the one process with the number. -/
theorem Table.find_iff (h : Table k) {pid : ℕ} :
    k.find pid = some i ↔ (k.tasks i).state ≠ .free ∧ pid = i + 1 := by
  constructor
  · intro hf
    obtain ⟨h1, h2⟩ := find_eq_some hf
    exact ⟨h1, h2.symm.trans (h.pid i h1)⟩
  · rintro ⟨h1, rfl⟩
    cases hf : k.find (i + 1) with
    | none =>
      rw [find, List.find?_eq_none] at hf
      have := hf i (List.mem_finRange i)
      simp only [h1, h.pid i h1, ne_eq, not_false_eq_true, and_self, decide_true, not_true] at this
    | some j =>
      obtain ⟨h3, h4⟩ := find_eq_some hf
      rw [h.pid j h3] at h4
      exact congrArg some (Fin.ext (by omega))

/-- The current task changes its own state. -/
theorem Table.setCurrent (h : Table k) {t : Task} (hp : t.pid = (k.tasks k.current).pid)
    (hpp : t.ppid = (k.tasks k.current).ppid) (hf : t.state ≠ .free) :
    Table (k.setTask k.current t) := by
  have htask : ∀ j, (k.setTask k.current t).tasks j = if j = k.current then t else k.tasks j :=
    fun j => by rw [setTask_tasks, Function.update_apply]
  refine ⟨fun j hj => ?_, fun j hj => ?_, fun j hj => ?_, ?_⟩
  · rw [htask] at hj ⊢
    split
    · next hc => rw [hp, hc, h.pid _ h.current]
    · next hc =>
      rw [if_neg hc] at hj
      exact h.pid j hj
  · rw [htask] at hj ⊢
    split
    · rw [hpp]
      exact h.ppid _ h.current
    · next hc =>
      rw [if_neg hc] at hj
      exact h.ppid j hj
  · rw [htask] at hj
    split at hj
    · next hc => exact hc
    · exact h.running j hj
  · rw [htask]
    exact if_pos rfl ▸ hf

/-- A free slot is filled, or left free. -/
theorem Table.spawn (h : Table k) {t : Task} (hi : (k.tasks i).state = .free)
    (ht : t.state = .free ∨ t.state = .ready ∧ t.pid = i + 1 ∧ t.ppid = (k.tasks k.current).pid) :
    Table (k.setTask i t) := by
  have htask : ∀ j, (k.setTask i t).tasks j = if j = i then t else k.tasks j := fun j => by
    rw [setTask_tasks, Function.update_apply]
  have hne : k.current ≠ i := fun he => h.current (he ▸ hi)
  refine ⟨fun j hj => ?_, fun j hj => ?_, fun j hj => ?_, ?_⟩
  · rw [htask] at hj ⊢
    split
    · next hc =>
      rw [if_pos hc] at hj
      rw [hc]
      exact (ht.resolve_left hj).2.1
    · next hc =>
      rw [if_neg hc] at hj
      exact h.pid j hj
  · rw [htask] at hj ⊢
    split
    · next hc =>
      rw [if_pos hc] at hj
      rw [(ht.resolve_left hj).2.2, h.pid _ h.current]
      exact k.current.isLt
    · next hc =>
      rw [if_neg hc] at hj
      exact h.ppid j hj
  · rw [htask] at hj
    split at hj
    · rcases ht with ht | ⟨ht, -⟩
      · rw [ht] at hj
        cases hj
      · rw [ht] at hj
        cases hj
    · exact h.running j hj
  · change ((k.setTask i t).tasks k.current).state ≠ .free
    rw [htask, if_neg hne]
    exact h.current

/-- **`deliver_pending`** changes registers and the signal state. -/
theorem delivered_eq (t : Task) : ∃ r pending mask saved active, delivered t = { t with
    regs := r, sigPending := pending, sigMask := mask, sigSavedMask := saved, sigActive :=
  active } := by
  have hd : ∀ x : Signal.Ctx, ∃ pending mask saved active, (Signal.deliverPending x).task =
    { x.task with
      sigPending := pending, sigMask := mask, sigSavedMask := saved, sigActive := active } := by
    intro x
    rw [Signal.deliverPending]
    split
    · exact ⟨_, _, _, _, rfl⟩
    · dsimp only
      split
      · split
        · rw [Signal.deliver]
          split
          · dsimp only
            split
            · exact ⟨_, _, _, _, rfl⟩
            · split
              · exact ⟨_, _, _, _, rfl⟩
              · split
                · exact ⟨_, _, _, _, rfl⟩
                · exact ⟨_, _, _, _, rfl⟩
          · exact ⟨_, _, _, _, rfl⟩
        · exact ⟨_, _, _, _, rfl⟩
      · exact ⟨_, _, _, _, rfl⟩
  obtain ⟨pending, mask, saved, active, h⟩ := hd ⟨t, t.regs, fun _ => 0⟩
  refine ⟨(Signal.deliverPending ⟨t, t.regs, fun _ => 0⟩).regs, pending, mask, saved, active, ?_⟩
  rw [delivered, h]

theorem delivered_life (t : Task) : SameLife t (delivered t) := by
  obtain ⟨r, pending, mask, saved, active, h⟩ := delivered_eq t
  rw [h]
  exact ⟨rfl, rfl, rfl, rfl⟩

/-- **`switch_to`**: whoever ran is ready, and the task switched to runs. -/
theorem switchTo_spec (k : Kernel H) (i : Fin kMaxTask) : (k.switchTo i).current = i ∧
    (∀ j, ((k.switchTo i).tasks j).pid = (k.tasks j).pid ∧
      ((k.switchTo i).tasks j).ppid = (k.tasks j).ppid ∧
      ((k.switchTo i).tasks j).done = (k.tasks j).done) ∧
    ∀ j, ((k.switchTo i).tasks j).state = if j = i then .running else
      if j = k.current ∧ (k.tasks j).state = .running then .ready else (k.tasks j).state := by
  set k₁ := if (k.tasks k.current).state = .running then
    k.setTask k.current { k.tasks k.current with state := .ready } else k with hk₁
  set t : Task := { k₁.tasks i with state := .running, quantum := kQuantum } with ht
  set t' := if !t.inSyscall && t.regs.fromUser then delivered t else t with ht'
  have he : k.switchTo i
      = { (k₁.setMmu (k₁.mmu.spaceSwitch t'.sp)).setTask i t' with current := i } := rfl
  have hlife : SameLife t t' := by
    rw [ht']
    split
    · exact delivered_life t
    · exact .refl t
  have hk : ∀ j, (k₁.tasks j).pid = (k.tasks j).pid ∧ (k₁.tasks j).ppid = (k.tasks j).ppid ∧
      (k₁.tasks j).done = (k.tasks j).done ∧ (k₁.tasks j).state =
        if j = k.current ∧ (k.tasks j).state = .running then .ready else (k.tasks j).state := by
    intro j
    rw [hk₁]
    split
    · next hr =>
      rw [setTask_tasks]
      by_cases hj : j = k.current
      · subst hj
        rw [Function.update_self, if_pos ⟨rfl, hr⟩]
        exact ⟨rfl, rfl, rfl, rfl⟩
      · rw [Function.update_of_ne hj, if_neg fun h => hj h.1]
        exact ⟨rfl, rfl, rfl, rfl⟩
    · next hr =>
      refine ⟨rfl, rfl, rfl, (if_neg ?_).symm⟩
      rintro ⟨rfl, h⟩
      exact hr h
  have htask : ∀ j, (k.switchTo i).tasks j = if j = i then t' else k₁.tasks j := fun j => by
    rw [he]
    exact Function.update_apply _ _ _ _
  refine ⟨by rw [he], fun j => ?_, fun j => ?_⟩
  · rw [htask]
    split
    · next hj =>
      subst hj
      rw [hlife.pid, hlife.ppid, hlife.done]
      exact ⟨(hk j).1, (hk j).2.1, (hk j).2.2.1⟩
    · exact ⟨(hk j).1, (hk j).2.1, (hk j).2.2.1⟩
  · rw [htask]
    split
    · rw [hlife.state]
    · exact (hk j).2.2.2

theorem Table.switchTo (h : Table k) (hp : (k.tasks i).pid = i + 1)
    (hpp : (k.tasks i).ppid ≤ kMaxTask) :
    Table (k.switchTo i) := by
  obtain ⟨hcur, hsame, hstate⟩ := switchTo_spec k i
  have hused : ∀ j ≠ i, ((k.switchTo i).tasks j).state ≠ .free → (k.tasks j).state ≠ .free := by
    intro j hji hj
    rw [hstate, if_neg hji] at hj
    split at hj
    · next hr =>
      rw [hr.2]
      exact TaskState.noConfusion
    · exact hj
  refine ⟨fun j hj => ?_, fun j hj => ?_, fun j hj => ?_, ?_⟩
  · rw [(hsame j).1]
    by_cases hji : j = i
    · rw [hji, hp]
    · exact h.pid j (hused j hji hj)
  · rw [(hsame j).2.1]
    by_cases hji : j = i
    · rwa [hji]
    · exact h.ppid j (hused j hji hj)
  · rw [hcur]
    by_contra hji
    rw [hstate, if_neg hji] at hj
    split at hj
    · cases hj
    · next hr => exact hr ⟨h.running j hj, hj⟩
  · rw [hcur, hstate, if_pos rfl]
    exact TaskState.noConfusion

theorem pick_ready (h : k.pick = some i) : (k.tasks i).state = .ready := by
  have := List.find?_some h
  simp only [Bool.decide_and, Bool.decide_eq_true, Bool.and_eq_true, decide_eq_true_eq] at this
  exact this.1

/-- **`collect`** takes a note away. -/
theorem collect_spec (k : Kernel H) (pid : ℕ) : k.collect pid = k ∨
    ∃ t, k.collect pid = k.setTask k.current t ∧ t.pid = (k.tasks k.current).pid ∧
      t.ppid = (k.tasks k.current).ppid ∧ t.state = (k.tasks k.current).state ∧
      ∃ i n, (k.tasks k.current).done[i]? = some n ∧
        t.done =
        ((k.tasks k.current).done.set i ((k.tasks k.current).done.getLast?.getD n)).dropLast := by
  rw [collect]
  cases ht : takeDone (k.tasks k.current) pid with
  | none => exact Or.inl rfl
  | some r =>
    obtain ⟨i, -, h⟩ := Option.bind_eq_some_iff.mp ht
    obtain ⟨n, hn, rfl⟩ := Option.map_eq_some_iff.mp h
    exact Or.inr ⟨_, rfl, rfl, rfl, rfl, i, n, hn, rfl⟩

section

variable [PageAlloc H]

/-- What `create` can come to: nothing, or one free slot is filled or left with rubbish. -/
theorem create_spec (k : Kernel H) (name : List UInt8) : (k.create name).2 = k ∨
    ∃ slot t m pipes, k.freeSlot = some slot ∧
      (k.create name).2 = ((k.setMmu m).setTask slot t).setPipes pipes ∧
      (pipes = k.pipes ∨ ∃ fd, pipes = fdShareAll k.pipes fd) ∧ t.done = [] ∧
      (t.state = .free ∨ t.state = .ready ∧ t.pid = slot + 1 ∧
        t.ppid = (k.tasks k.current).pid) := by
  rw [create]
  split
  · exact Or.inl rfl
  next slot hslot =>
  right
  rcases k.mmu.spaceCreate with ⟨sp, m⟩
  dsimp only
  split
  · exact ⟨slot, _, m, k.pipes, hslot, rfl, Or.inl rfl, rfl, Or.inl rfl⟩
  rcases m.kframeAllocN (kKernelAlloc / 4096) with ⟨kstack, m⟩
  dsimp only
  split
  · exact ⟨slot, _, _, k.pipes, hslot, rfl, Or.inl rfl, rfl, Or.inl rfl⟩
  have hframes : (giveFrames m (freshTask sp kstack)).2.1.state = .free ∧
      (giveFrames m (freshTask sp kstack)).2.1.done = [] := by
    simp only [giveFrames]
    split
    · exact ⟨rfl, rfl⟩
    · exact ⟨rfl, rfl⟩
  generalize giveFrames m (freshTask sp kstack) = r at hframes ⊢
  split
  · exact ⟨slot, _, _, k.pipes, hslot, rfl, Or.inl rfl, hframes.2, Or.inl hframes.1⟩
  · exact ⟨slot, _, _, _, hslot, rfl, Or.inr ⟨_, rfl⟩, hframes.2, Or.inr ⟨rfl, rfl, rfl⟩⟩

/-- What `fork_user` does to the table: nothing, or it clears the notes about a free slot and fills
the slot or leaves it free. -/
theorem forkUser_table (k : Kernel H) (frame : Registers) : (k.forkUser frame).2 = k ∨
    ∃ slot t m pipes, k.freeSlot = some slot ∧
      (k.forkUser frame).2
        = (((k.purgeNotes (slot + 1)).setMmu m).setTask slot t).setPipes pipes ∧
      (pipes = k.pipes ∨ ∃ fd, pipes = fdShareAll k.pipes fd) ∧ t.done = [] ∧
      (t.state = .free ∨ t.state = .ready ∧ t.pid = slot + 1 ∧
        t.ppid = (k.tasks k.current).pid) := by
  have h := forkUser_spec k frame
  generalize k.forkUser frame = r at h ⊢
  cases h with
  | refused h => exact Or.inl rfl
  | noSpace hslot hspace =>
    exact Or.inr ⟨_, _, _, k.pipes, hslot, rfl, Or.inl rfl, rfl, Or.inl rfl⟩
  | noShare hslot hspace hsp hshare =>
    exact Or.inr ⟨_, _, _, k.pipes, hslot, rfl, Or.inl rfl, rfl, Or.inl rfl⟩
  | noStack hslot hspace hsp hshare hstack =>
    exact Or.inr ⟨_, _, _, k.pipes, hslot, rfl, Or.inl rfl, rfl, Or.inl rfl⟩
  | forked hslot hspace hsp hshare hstack hk =>
    exact Or.inr ⟨_, _, _, _, hslot, rfl, Or.inr ⟨_, rfl⟩, rfl, Or.inr ⟨rfl, rfl, rfl⟩⟩

/-- What the end of a tick can come to. -/
theorem preempt_spec {r : Registers} {b : Bool} (h : k.preempt r = some (b, k')) :
    ∃ k₁, (k₁ = k ∨ ∃ q r s, k₁ = k.setTask k.current { k.tasks k.current with
        quantum := q, regs := r, inSyscall := s }) ∧
      (b = false ∧ k' = k₁ ∨ ∃ k₂, k₁.reap = some k₂ ∧
        (b = false ∧ k' = k₂ ∨ b = true ∧ ∃ i, k₂.pick = some i ∧ i ≠ k₂.current ∧
          k' = k₂.switchTo i)) := by
  have rest : ∀ k₁ : Kernel H, (k₁.reap.map fun k =>
      match k.pick with
      | none => (false, k)
      | some dst => if dst = k.current then (false, k) else (true, k.switchTo dst)) = some (b, k') →
      ∃ k₂, k₁.reap = some k₂ ∧ (b = false ∧ k' = k₂ ∨ b = true ∧ ∃ i, k₂.pick = some i ∧
        i ≠ k₂.current ∧ k' = k₂.switchTo i) := by
    intro k₁ h₁
    obtain ⟨k₂, hk₂, h₂⟩ := Option.map_eq_some_iff.mp h₁
    refine ⟨k₂, hk₂, ?_⟩
    cases hp : k₂.pick with
    | none =>
      rw [hp] at h₂
      obtain ⟨rfl, rfl⟩ := Prod.mk.inj h₂
      exact Or.inl ⟨rfl, rfl⟩
    | some dst =>
      rw [hp] at h₂
      dsimp only at h₂
      split at h₂
      · obtain ⟨rfl, rfl⟩ := Prod.mk.inj h₂
        exact Or.inl ⟨rfl, rfl⟩
      · next hne =>
        obtain ⟨rfl, rfl⟩ := Prod.mk.inj h₂
        exact Or.inr ⟨rfl, dst, rfl, hne, rfl⟩
  rw [preempt] at h
  split at h
  · exact ⟨k, Or.inl rfl, Or.inr (rest k h)⟩
  split at h
  · obtain ⟨rfl, rfl⟩ := Prod.mk.inj (Option.some.inj h)
    exact ⟨k, Or.inl rfl, Or.inl ⟨rfl, rfl⟩⟩
  split at h
  · obtain ⟨rfl, rfl⟩ := Prod.mk.inj (Option.some.inj h)
    exact ⟨_, Or.inr ⟨_, _, _, rfl⟩, Or.inl ⟨rfl, rfl⟩⟩
  · exact ⟨_, Or.inr ⟨_, _, _, rfl⟩, Or.inr (rest _ h)⟩

/-- **`create`** fills a slot that is free, or leaves it so. -/
theorem Table.create (h : Table k) (name : List UInt8) : Table (k.create name).2 := by
  rcases create_spec k name with he | ⟨slot, t, m, pipes, hslot, he, -, -, ht⟩
  · rw [he]
    exact h
  · rw [he]
    refine Table.calm ?_ (Wakes.setPipes _ pipes).calm
    exact (h.calm (Wakes.setMmu k m).calm).spawn (freeSlot_eq_some hslot).2 ht

/-- **`fork_user`**, too. -/
theorem Table.forkUser (h : Table k) (frame : Registers) : Table (k.forkUser frame).2 := by
  rcases forkUser_table k frame with he | ⟨slot, t, m, pipes, hslot, he, -, -, ht⟩
  · rw [he]
    exact h
  · rw [he]
    refine Table.calm ?_ (Wakes.setPipes _ pipes).calm
    have hpurge := (calm_purgeNotes k (slot + 1)).trans (Wakes.setMmu _ m).calm
    exact (h.calm hpurge).spawn (freeSlot_eq_some hslot).2 ht

omit [PageAlloc H] in
/-- **`block`** is about the current task. -/
theorem Table.block (h : Table k) : Table k.block.2 := by
  rw [Kernel.block]
  split
  · exact h
  · split
    · exact h.setCurrent rfl rfl TaskState.noConfusion
    · exact h.setCurrent rfl rfl TaskState.noConfusion

omit [PageAlloc H] in
/-- The count of a time slice is nothing to a parent. -/
theorem wakes_slice (hk : k' = k ∨ ∃ q r s, k' = k.setTask k.current { k.tasks k.current with
    quantum := q, regs := r, inSyscall := s }) : Wakes k k' := by
  rcases hk with rfl | ⟨q, r, s, rfl⟩
  · exact .refl k'
  · exact .setTask ⟨rfl, rfl, rfl, rfl⟩

end

end Kernel

/-! ## Every operation -/

namespace Machine

open Kernel

variable {H : Type} {w w' : Machine H}

/-- The table is in order, and a task that was chosen to run has its number. -/
structure Table (w : Machine H) : Prop where
  /-- The table is in order. -/
  kernel : w.k.Table
  /-- Who was chosen has the number of its slot. -/
  pending : ∀ i, w.pending = some i → (w.k.tasks i).pid = i + 1 ∧ (w.k.tasks i).ppid ≤ kMaxTask

theorem Table.calm (h : Table w) (hc : Calm w.k w'.k) (hp : w'.pending = w.pending) :
    Table w' := by
  refine ⟨h.kernel.calm hc, fun i hi => ?_⟩
  rw [hc.pid, hc.ppid]
  exact h.pending i (hp ▸ hi)

theorem Table.of_kernel (h : Kernel.Table w'.k) (hp : w'.pending = none) : Table w' := by
  refine ⟨h, fun i hi => ?_⟩
  rw [hp] at hi
  cases hi

theorem calm_ttyDrain (w : Machine H) (keys : List UInt8) : Calm w.k (w.ttyDrain keys).k ∧
    (w.ttyDrain keys).pending = w.pending := by
  rw [ttyDrain]
  split
  · exact ⟨.refl _, rfl⟩
  · exact ⟨(Calm.foldl (calm_ttyInput w.owner w.sigs) w.k keys).trans (wakes_kbdWake _ _).calm, rfl⟩

theorem wakes_tickAll (now : ℕ) (k : Kernel H) :
    Wakes k ((List.finRange kMaxTask).foldl (Kernel.tickSlot now) k) := by
  generalize List.finRange kMaxTask = l
  exact Wakes.foldl (wakes_tickSlot now) k l

theorem wakes_ticked (w : Machine H) : Wakes w.k w.ticked.k := by
  have he : w.ticked.k = (List.finRange kMaxTask).foldl (Kernel.tickSlot (w.ticks + 1)) w.k := by
    rw [ticked]
  rw [he]
  exact wakes_tickAll _ w.k

theorem calm_onTick (w : Machine H) (keys : List UInt8) (serial : Bool) :
    Calm w.k (w.onTick keys serial).k ∧ (w.onTick keys serial).pending = w.pending := by
  have h₁ := (wakes_ticked w).calm
  have hp₁ : w.ticked.pending = w.pending := by rw [ticked]
  rw [onTick, ← hp₁]
  -- The loop over the slots is not looked at again.
  generalize w.ticked = v at h₁ ⊢
  obtain ⟨h₂, hp⟩ := calm_ttyDrain v keys
  generalize v.ttyDrain keys = w₂ at h₂ hp ⊢
  split
  · exact ⟨(h₁.trans h₂).trans (wakes_kbdWake _ _).calm, hp⟩
  · exact ⟨h₁.trans h₂, hp⟩

variable [PageAlloc H] {op : Op H}

/-- **One operation.** -/
theorem Table.step (h : Table w) (ha : w.Allowed op) (hst : w.step op = some w') : Table w' := by
  have hk := h.kernel
  cases op with
  | create name =>
    obtain rfl := Option.some.inj hst
    exact .of_kernel (hk.create name) ha
  | arm i =>
    obtain rfl := Option.some.inj hst
    refine h.calm (Wakes.calm ?_) rfl
    exact .setTask ⟨rfl, rfl, rfl, rfl⟩
  | fork frame =>
    obtain rfl := Option.some.inj hst
    exact .of_kernel (hk.forkUser frame) ha
  | destroy i =>
    obtain rfl := Option.some.inj hst
    exact h.calm (calm_destroy ha.2) rfl
  | becomeFirst =>
    obtain rfl := Option.some.inj hst
    refine .of_kernel ?_ ha.1
    have := hk.setCurrent (t := { w.k.tasks 0 with inSyscall := false, state := .ready })
      (by rw [ha.2]) (by rw [ha.2]) TaskState.noConfusion
    rwa [ha.2] at this
  | block =>
    obtain rfl := Option.some.inj hst
    exact .of_kernel hk.block ha
  | unblock i =>
    obtain rfl := Option.some.inj hst
    exact h.calm (wakes_unblock _ i).calm rfl
  | resumeAfterExec =>
    obtain rfl := Option.some.inj hst
    exact .of_kernel (hk.setCurrent rfl rfl TaskState.noConfusion) ha
  | reap =>
    obtain ⟨k', hk', rfl⟩ := Option.map_eq_some_iff.mp hst
    exact h.calm (calm_reap hk') rfl
  | pick =>
    obtain rfl := Option.some.inj hst
    refine ⟨hk, fun i hi => ?_⟩
    have := pick_ready hi
    have hused : (w.k.tasks i).state ≠ .free := by
      rw [this]
      exact TaskState.noConfusion
    exact ⟨hk.pid i hused, hk.ppid i hused⟩
  | switch =>
    rw [Machine.step] at hst
    cases hp : w.pending with
    | none =>
      rw [hp] at hst
      obtain rfl := Option.some.inj hst
      exact h
    | some dst =>
      rw [hp] at hst
      obtain rfl := Option.some.inj hst
      exact .of_kernel (hk.switchTo (h.pending dst hp).1 (h.pending dst hp).2) rfl
  | kill pid sig =>
    obtain rfl := Option.some.inj hst
    exact h.calm (calm_kill pid sig hk.current) rfl
  | fault intNo =>
    obtain rfl := Option.some.inj hst
    exact h.calm (calm_killUserFault intNo hk.current) rfl
  | exit code =>
    obtain rfl := Option.some.inj hst
    exact h.calm (calm_exit code hk.current) rfl
  | tick keys serial =>
    obtain rfl := Option.some.inj hst
    exact h.calm (calm_onTick w keys serial).1 (calm_onTick w keys serial).2
  | preempt r =>
    obtain ⟨⟨b, k'⟩, hpre, rfl⟩ := Option.map_eq_some_iff.mp hst
    obtain ⟨k₁, hslice, hrest⟩ := preempt_spec hpre
    have hk₁ := (wakes_slice hslice).calm
    rcases hrest with ⟨rfl, rfl⟩ | ⟨k₂, hk₂, ⟨rfl, rfl⟩ | ⟨rfl, i, hi, -, rfl⟩⟩
    · exact h.calm hk₁ rfl
    · exact h.calm (hk₁.trans (calm_reap hk₂)) rfl
    · have hk' := hk.calm (hk₁.trans (calm_reap hk₂))
      have hused : (k₂.tasks i).state ≠ .free := by
        rw [pick_ready hi]
        exact TaskState.noConfusion
      exact .of_kernel (hk'.switchTo (hk'.pid i hused) (hk'.ppid i hused)) rfl
  | key =>
    obtain rfl := Option.some.inj hst
    exact h.calm (wakes_kbdWake _ _).calm rfl
  | drain keys =>
    obtain rfl := Option.some.inj hst
    exact h.calm (calm_ttyDrain w keys).1 (calm_ttyDrain w keys).2
  | collect pid =>
    obtain rfl := Option.some.inj hst
    refine .of_kernel ?_ ha
    rcases collect_spec w.k pid with he | ⟨t, he, hp, hpp, hs, -⟩
    · rw [setKernel_k, he]
      exact hk
    · rw [setKernel_k, he]
      exact hk.setCurrent hp hpp (hs ▸ hk.current)
  | work t =>
    obtain rfl := Option.some.inj hst
    exact h.calm (Wakes.setTask ha.2).calm rfl
  | outside mmu pipes kbdWait owner sigs =>
    obtain rfl := Option.some.inj hst
    exact h.calm ((Wakes.setMmu w.k mmu).trans (.setPipes _ pipes)).calm rfl

omit [PageAlloc H] in
theorem table_boot (m : Mmu H) (kstack : ℕ) (kernCode : UInt32) :
    Table (boot m kstack kernCode) := by
  have htask : ∀ i : Fin kMaxTask, i ≠ 0 →
      ((boot m kstack kernCode).k.tasks i).state = .free := fun i hi => by
    change ((Function.update (fun _ => Task.zero) 0 _ : Fin kMaxTask → Task) i).state = _
    rw [Function.update_of_ne hi]
    rfl
  refine .of_kernel ⟨fun i hi => ?_, fun i hi => ?_, fun i hi => ?_, ?_⟩ rfl
  · by_cases h : i = 0
    · subst h
      rfl
    · exact absurd (htask i h) hi
  · by_cases h : i = 0
    · subst h
      exact Nat.zero_le _
    · exact absurd (htask i h) hi
  · by_contra h
    rw [htask i h] at hi
    cases hi
  · exact fun h => TaskState.noConfusion h

theorem table_of_reachable {m : Mmu H} {kstack : ℕ} {kernCode : UInt32}
    (hr : Reachable (boot m kstack kernCode) w) : Table w := by
  induction hr with
  | refl => exact table_boot m kstack kernCode
  | step _ ha hst ih => exact ih.step ha hst

/-- **The process table.** After any operations in any order a slot in use has its number, so that
`find` finds the one process there is, and at most one task runs, which is then the current one. -/
theorem process_table {m : Mmu H} {kstack : ℕ} {kernCode : UInt32}
    (hr : Reachable (boot m kstack kernCode) w) :
    (∀ i, (w.k.tasks i).state ≠ .free →
        (w.k.tasks i).pid = i + 1 ∧ ∀ j, w.k.find (w.k.tasks i).pid = some j ↔ j = i) ∧
      (∀ i j, (w.k.tasks i).state = .running → (w.k.tasks j).state = .running → i = j) ∧
      ∀ i, (w.k.tasks i).state = .running → i = w.k.current := by
  have hk := (table_of_reachable hr).kernel
  refine ⟨fun i hi => ⟨hk.pid i hi, fun j => ?_⟩, fun i j hi hj => ?_, hk.running⟩
  · rw [hk.find_iff, hk.pid i hi]
    constructor
    · rintro ⟨-, he⟩
      exact Fin.ext (by omega)
    · rintro rfl
      exact ⟨hi, rfl⟩
  · rw [hk.running i hi, hk.running j hj]

/-- A machine that has just started. -/
def startup : Machine Pages.Bump := boot bare 8192 8

/-- A second task is made, and has its turn. -/
def secondTask : List (Op Pages.Bump) := [.create [], .arm 1, .block, .pick, .switch]

theorem process_table_secondTask : ((startup.follow secondTask 5).k.tasks 1).state = .running ∧
    ∀ i, ((startup.follow secondTask 5).k.tasks i).state = .running →
      i = (startup.follow secondTask 5).k.current :=
  ⟨by decide +kernel, (process_table (reachable_follow (by decide +kernel))).2.2⟩

end Machine

end Aurisys
