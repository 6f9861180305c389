import Aurisys.Kernel.Dead

/-!
# The numbers in the notes

Whoever ends is in use, so the number in a note about it is that of a slot. This is so after any
operations in any order, even if the dead come back in between.

## Main definitions

* `Tells` — the only notes that come are about tasks in use
* `Named` — the invariant

## Main results

* `Machine.named_of_reachable`
-/

namespace Aurisys

open Paging

namespace Kernel

variable {H : Type} {k k' k'' : Kernel H} {i j : Fin kMaxTask}

/-- The notes of each task are those it had, and new ones about tasks in use. -/
structure Tells (k k' : Kernel H) : Prop where
  calm : Calm k k'
  note : ∀ i, ∀ n ∈ (k'.tasks i).done,
    n ∈ (k.tasks i).done ∨ ∃ j, (k.tasks j).state ≠ .free ∧ n.pid = (k.tasks j).pid

/-- **Each note has the number of a slot.** -/
def Named (k : Kernel H) : Prop := ∀ i, ∀ n ∈ (k.tasks i).done, ∃ j : Fin kMaxTask, n.pid = j + 1

theorem Tells.of_done (hc : Calm k k') (hd : ∀ i, (k'.tasks i).done = (k.tasks i).done) :
    Tells k k' :=
  ⟨hc, fun i _ hn => Or.inl (hd i ▸ hn)⟩

theorem Tells.refl (k : Kernel H) : Tells k k := .of_done (.refl k) fun _ => rfl

theorem Tells.trans (h : Tells k k') (h' : Tells k' k'') : Tells k k'' := by
  refine ⟨h.calm.trans h'.calm, fun i n hn => ?_⟩
  rcases h'.note i n hn with hn | ⟨j, hj, hpid⟩
  · exact h.note i n hn
  · exact Or.inr ⟨j, fun hf => hj (h.calm.free j hf), hpid.trans (h.calm.pid j)⟩

theorem Tells.foldl {β : Type} {f : Kernel H → β → Kernel H} (h : ∀ k b, Tells k (f k b))
    (k : Kernel H)
    (l : List β) : Tells k (l.foldl f k) := by
  induction l generalizing k with
  | nil => exact .refl k
  | cons b l ih => exact (h k b).trans (ih _)

theorem Wakes.tells (h : Wakes k k') : Tells k k' := .of_done h.calm h.done

theorem Named.tells (h : Named k) (ht : Table k) (hn : Tells k k') : Named k' := by
  intro i n hmem
  rcases hn.note i n hmem with hmem | ⟨j, hj, hpid⟩
  · exact h i n hmem
  · exact ⟨j, hpid.trans (ht.pid j hj)⟩

/-- The lists of notes get shorter, or stay. -/
theorem Named.of_subset (h : Named k) (hd : ∀ i, (k'.tasks i).done ⊆ (k.tasks i).done) : Named k' :=
  fun i n hn => h i n (hd i hn)

/-- A slot is written, with notes that it had. -/
theorem Named.setTask (h : Named k) {t : Task} (ht : t.done ⊆ (k.tasks i).done) :
    Named (k.setTask i t) := by
  refine h.of_subset fun j => ?_
  rw [setTask_tasks, Function.update_apply]
  split
  · next hj => exact hj ▸ ht
  · exact List.Subset.refl _

theorem Named.switchTo (h : Named k) (i : Fin kMaxTask) : Named (k.switchTo i) :=
  h.of_subset fun j => ((switchTo_spec k i).2.1 j).2.2 ▸ List.Subset.refl _

/-- **The end of a process**: the note has its number. -/
theorem Dies.tells (h : Dies k i k') (hi : (k.tasks i).state ≠ .free) : Tells k k' := by
  refine ⟨h.calm hi, fun p n hn => ?_⟩
  obtain ⟨t, k₁, hpid, -, hdone, -, h₁, h₂⟩ := h
  have hset : ∀ j, ((k.setTask i t).tasks j).done = (k.tasks j).done ∧
      ((k.setTask i t).tasks j).pid = (k.tasks j).pid := by
    intro j
    rw [setTask_tasks, Function.update_apply]
    split
    · next hj => exact ⟨hj ▸ hdone, hj ▸ hpid⟩
    · exact ⟨rfl, rfl⟩
  have hold : ∀ j, (k₁.tasks j).done = (k.tasks j).done := fun j => (h₁.done j).trans (hset j).1
  rw [h₂.done, noted] at hn
  split at hn
  · exact Or.inl (hold p ▸ hn)
  · next q _ =>
    split at hn
    · exact Or.inl (hold p ▸ hn)
    · rw [setTask_tasks, Function.update_apply] at hn
      split at hn
      · next hp =>
        rcases List.mem_append.mp hn with hn | hn
        · exact Or.inl (by rw [hp, ← hold q]; exact hn)
        · rw [List.mem_singleton.mp hn]
          exact Or.inr ⟨i, hi, (h₁.pid i).trans (hset i).2⟩
      · exact Or.inl (hold p ▸ hn)

/-- **`signal_task`** leaves no note. -/
theorem tells_signalTask (k : Kernel H) (pid : ℕ) (sig : UInt32) :
    Tells k (k.signalTask pid sig).2 := by
  refine .of_done (calm_signalTask k pid sig) fun j => ?_
  have hset : ∀ (i : Fin kMaxTask) (t : Task), t.done = (k.tasks i).done →
      ((k.setTask i t).tasks j).done = (k.tasks j).done := by
    intro i t ht
    rw [setTask_tasks, Function.update_apply]
    split
    · next hj => rw [hj, ht]
    · rfl
  rw [signalTask]
  split
  · rfl
  · next i _ =>
    dsimp only
    split
    · rfl
    · split
      · split
        · exact ((wakes_unblock _ i).done j).trans (hset i _ rfl)
        · exact hset i _ rfl
      · exact hset i _ rfl

theorem tells_kill (pid : ℕ) (sig : UInt32) (hc : (k.tasks k.current).state ≠ .free) :
    Tells k (k.kill pid sig).2 := by
  have hs := tells_signalTask k pid sig
  rw [kill]
  generalize k.signalTask pid sig = r at hs ⊢
  obtain ⟨ok, k₁⟩ := r
  dsimp only at hs ⊢
  split
  · exact hs
  · split
    · exact hs.trans ((dies_exit k₁ _).tells (hs.calm.current ▸ hs.calm.stays hc))
    · exact hs

theorem tells_killUserFault (intNo : ℕ) (hc : (k.tasks k.current).state ≠ .free) :
    Tells k (k.killUserFault intNo) := by
  have hset : Tells k (k.setTask k.current { k.tasks k.current with
      signal := faultSignal intNo, state := .killed }) := by
    refine .of_done (.setTask rfl rfl TaskState.noConfusion hc TaskState.noConfusion) fun j => ?_
    rw [setTask_tasks, Function.update_apply]
    split
    · next hj => rw [hj]
    · rfl
  exact hset.trans ((dies_exit _ _).tells (hset.calm.stays hc))

theorem tells_ttyInput (owner : ℕ) (sigs : Bool) (k : Kernel H) (c : UInt8) :
    Tells k (ttyInput owner sigs k c) := by
  rw [ttyInput]
  split
  · dsimp only
    generalize (if owner ≠ 0 then owner else (k.tasks k.current).pid) = pid
    split
    · exact tells_signalTask k pid kSigInt
    · exact .refl k
  · exact .refl k

section

variable [PageAlloc H]

theorem tells_destroy (hi : i ≠ k.current) : Tells k (k.destroy i) := by
  refine .of_done (calm_destroy hi) fun j => ?_
  rw [destroy]
  split
  · rfl
  · rw [setTask_tasks, Function.update_apply]
    split
    · next hj => rw [hj]
    · rfl

theorem tells_reapSlot (k : Kernel H) (i : Fin kMaxTask) : Tells k (k.reapSlot i) := by
  have hb : Tells k (if (k.tasks i).state = .killed then k.bury i else k) := by
    split
    · next h => exact (dies_bury k i).tells (by rw [h]; exact TaskState.noConfusion)
    · exact .refl k
  rw [reapSlot]
  generalize (if (k.tasks i).state = .killed then k.bury i else k) = k₁ at hb ⊢
  split
  · exact hb
  · next h => exact hb.trans (tells_destroy fun he => h (Or.inr he))

/-- **`reap`.** -/
theorem tells_reap (h : k.reap = some k') : Tells k k' := by
  rw [reap] at h
  split at h
  · cases h
  · rw [← Option.some.inj h]
    exact Tells.foldl tells_reapSlot k _

/-! A note that is read goes out of the list. A new process begins with an empty one. -/

theorem Named.create (hn : Named k) (name : List UInt8) : Named (k.create name).2 := by
  rcases create_spec k name with he | ⟨slot, t, m, pipes, -, he, -, hdone, -⟩
  · rw [he]
    exact hn
  · rw [he]
    exact Named.setTask (k := k.setMmu m) hn (hdone ▸ List.nil_subset _)

theorem Named.forkUser (hn : Named k) (frame : Registers) : Named (k.forkUser frame).2 := by
  rcases forkUser_table k frame with he | ⟨slot, t, m, pipes, -, he, -, hdone, -⟩
  · rw [he]
    exact hn
  · rw [he]
    have hpurge : Named ((k.purgeNotes (slot + 1)).setMmu m) :=
      hn.of_subset fun j => List.filter_subset_self _
    exact hpurge.setTask (hdone ▸ List.nil_subset _)

omit [PageAlloc H] in
theorem Named.block (hn : Named k) : Named k.block.2 := by
  rw [Kernel.block]
  split
  · exact hn
  · split
    · exact hn.setTask (List.Subset.refl _)
    · exact hn.setTask (List.Subset.refl _)

omit [PageAlloc H] in
theorem Named.collect (hn : Named k) (pid : ℕ) : Named (k.collect pid) := by
  rcases collect_spec k pid with he | ⟨t, he, -, -, -, i, n, hi, hdone⟩
  · rw [he]
    exact hn
  · rw [he]
    refine hn.setTask fun a ha => ?_
    rw [hdone] at ha
    exact (hole_perm hi).subset (List.mem_cons_of_mem _ ha)

end

end Kernel

namespace Machine

open Kernel

variable {H : Type} {w w' : Machine H}

theorem tells_ttyDrain (w : Machine H) (keys : List UInt8) : Tells w.k (w.ttyDrain keys).k := by
  rw [ttyDrain]
  split
  · exact .refl _
  · exact (Tells.foldl (tells_ttyInput w.owner w.sigs) w.k keys).trans (wakes_kbdWake _ _).tells

theorem tells_onTick (w : Machine H) (keys : List UInt8) (serial : Bool) :
    Tells w.k (w.onTick keys serial).k := by
  have h₁ := (wakes_ticked w).tells
  rw [onTick]
  generalize w.ticked = v at h₁ ⊢
  have h₂ := h₁.trans (tells_ttyDrain v keys)
  split
  · exact h₂.trans (wakes_kbdWake _ _).tells
  · exact h₂

variable [PageAlloc H] {op : Op H}

/-- **One operation.** -/
theorem Table.named_step (h : Table w) (hn : Named w.k) (ha : w.Allowed op)
    (hst : w.step op = some w') :
    Named w'.k := by
  have hk := h.kernel
  cases op with
  | create name =>
    obtain rfl := Option.some.inj hst
    exact hn.create name
  | arm i =>
    obtain rfl := Option.some.inj hst
    exact hn.setTask (List.Subset.refl _)
  | fork frame =>
    obtain rfl := Option.some.inj hst
    exact hn.forkUser frame
  | destroy i =>
    obtain rfl := Option.some.inj hst
    exact hn.tells hk (tells_destroy ha.2)
  | becomeFirst =>
    obtain rfl := Option.some.inj hst
    exact hn.setTask (List.Subset.refl _)
  | block =>
    obtain rfl := Option.some.inj hst
    exact hn.block
  | unblock i =>
    obtain rfl := Option.some.inj hst
    exact hn.tells hk (wakes_unblock _ i).tells
  | resumeAfterExec =>
    obtain rfl := Option.some.inj hst
    exact hn.setTask (List.Subset.refl _)
  | reap =>
    obtain ⟨k', hk', rfl⟩ := Option.map_eq_some_iff.mp hst
    exact hn.tells hk (tells_reap hk')
  | pick =>
    obtain rfl := Option.some.inj hst
    exact hn
  | switch =>
    rw [Machine.step] at hst
    cases hp : w.pending with
    | none =>
      rw [hp] at hst
      obtain rfl := Option.some.inj hst
      exact hn
    | some dst =>
      rw [hp] at hst
      obtain rfl := Option.some.inj hst
      exact hn.switchTo dst
  | kill pid sig =>
    obtain rfl := Option.some.inj hst
    exact hn.tells hk (tells_kill pid sig hk.current)
  | fault intNo =>
    obtain rfl := Option.some.inj hst
    exact hn.tells hk (tells_killUserFault intNo hk.current)
  | exit code =>
    obtain rfl := Option.some.inj hst
    exact hn.tells hk ((dies_exit w.k code).tells hk.current)
  | tick keys serial =>
    obtain rfl := Option.some.inj hst
    exact hn.tells hk (tells_onTick w keys serial)
  | preempt r =>
    obtain ⟨⟨b, k'⟩, hpre, rfl⟩ := Option.map_eq_some_iff.mp hst
    obtain ⟨k₁, hslice, hrest⟩ := preempt_spec hpre
    have hk₁ := wakes_slice hslice
    have hn₁ := hn.tells hk hk₁.tells
    rcases hrest with ⟨rfl, rfl⟩ | ⟨k₂, hk₂, ⟨rfl, rfl⟩ | ⟨rfl, i, -, -, rfl⟩⟩
    · exact hn₁
    · exact hn₁.tells (hk.calm hk₁.calm) (tells_reap hk₂)
    · exact (hn₁.tells (hk.calm hk₁.calm) (tells_reap hk₂)).switchTo i
  | key =>
    obtain rfl := Option.some.inj hst
    exact hn.tells hk (wakes_kbdWake _ _).tells
  | drain keys =>
    obtain rfl := Option.some.inj hst
    exact hn.tells hk (tells_ttyDrain w keys)
  | collect pid =>
    obtain rfl := Option.some.inj hst
    exact hn.collect pid
  | work t =>
    obtain rfl := Option.some.inj hst
    exact hn.tells hk (Wakes.setTask ha.2).tells
  | outside mmu pipes kbdWait owner sigs =>
    obtain rfl := Option.some.inj hst
    exact hn

/-- **The notes of any task, at any time**, have the numbers of slots. -/
theorem named_of_reachable {m : Mmu H} {kstack : ℕ} {kernCode : UInt32}
    (hr : Reachable (boot m kstack kernCode) w) :
    Table w ∧ Named w.k := by
  induction hr with
  | refl =>
    refine ⟨table_boot m kstack kernCode, fun i n hn => ?_⟩
    have hnone : ((boot m kstack kernCode).k.tasks i).done = [] := by
      change ((Function.update (fun _ => Task.zero) 0 _ : Fin kMaxTask → Task) i).done = _
      rw [Function.update_apply]
      split
      · rfl
      · rfl
    rw [hnone] at hn
    exact absurd hn List.not_mem_nil
  | step _ ha hst ih => exact ⟨ih.1.step ha hst, ih.1.named_step ih.2 ha hst⟩

end Machine

end Aurisys
