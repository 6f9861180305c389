import Aurisys.Kernel.Table
import Aurisys.Lib.Potential

/-!
# Everybody has a turn

`pick` looks at the slots from the one after the current one on. So a task that is ready and armed,
and goes on to be, is passed over by nobody who was looked at before: each switch brings the slot
that runs nearer to it, and nobody runs twice before it does.

## How long it can take

Only a tick that finds the processor in user mode takes anything from a time slice, since the kernel
is not preempted. So it is the ticks in user mode that are counted; what a task does in the kernel
may take as long as it likes.

## Main definitions

* `turn` — how many slots `pick` looks at before it comes to a task, and the task
* `Machine.Waits` — ready, armed, and not the current task
* `Machine.Course` — a run from the start in which no call gives its task more time

## Main results

* `turn_comes` — the switches and the ticks in user mode before a task that waits has its turn
-/

namespace Aurisys

open Paging

namespace Kernel

variable {H : Type} {k k' k'' : Kernel H} {i j : Fin kMaxTask}

/-! ## The order of `pick` -/

/-- How far the turn of task `i` is away from slot `c`: the place of `i` among the slots that `pick`
looks at. -/
def turn (c i : Fin kMaxTask) : ℕ := (i - c - 1 : Fin kMaxTask).val + 1

theorem turn_le_of_ne {c i : Fin kMaxTask} : i ≠ c → turn c i ≤ kMaxTask - 1 := by
  revert c i
  decide

/-- Whoever is looked at earlier is so much nearer. -/
theorem turn_add {c i j : Fin kMaxTask} : j ≠ i → turn c j ≤ turn c i →
    turn j i + turn c j = turn c i := by
  revert c i j
  decide

/-- The slot that `pick` looks at in its turn `n`. -/
theorem turn_place {c n : Fin kMaxTask} : turn c (c + 1 + n) = n + 1 := by
  revert c n
  decide

theorem place_turn {c i : Fin kMaxTask} : c + 1 + (i - c - 1) = i := by
  revert c i
  decide

theorem turn_self {c : Fin kMaxTask} : turn c c = kMaxTask := by
  revert c
  decide

theorem turn_pos (c i : Fin kMaxTask) : 0 < turn c i := Nat.succ_pos _

/-- **`pick`** stops at a task that is ready and armed, if not before. -/
theorem pick_turn (hs : (k.tasks i).state = .ready) (ha : (k.tasks i).armed = true) :
    ∃ j, k.pick = some j ∧ turn k.current j ≤ turn k.current i := by
  set l := (List.finRange kMaxTask).map fun n => k.current + 1 + n with hl
  have hlen : l.length = kMaxTask := by simp [hl]
  have hget : ∀ n (h : n < l.length), l[n] = k.current + 1 + ⟨n, hlen ▸ h⟩ := fun n h => by
    simp [hl]
  have hready : (decide ((k.tasks i).state = .ready ∧ (k.tasks i).armed)) = true := by simp [hs, ha]
  cases hp : k.pick with
  | none =>
    have hmem : i ∈ l := by
      rw [hl, List.mem_map]
      exact ⟨_, List.mem_finRange _, place_turn⟩
    exact absurd hready (List.find?_eq_none.mp hp i hmem)
  | some j =>
    refine ⟨j, rfl, ?_⟩
    obtain ⟨-, n, hn, rfl, hbefore⟩ := List.find?_eq_some_iff_getElem.mp hp
    by_contra hlt
    have hio : (i - k.current - 1 : Fin kMaxTask).val < n := by
      rw [hget n hn, turn_place, turn] at hlt
      dsimp only at hlt
      omega
    have := hbefore _ hio
    rw [hget _ (hio.trans hn), Fin.eta, place_turn, hready] at this
    exact Bool.noConfusion this

/-! ## What leaves the time slices alone -/

/-- The same task is current, and nobody has more time or less, or is armed. -/
structure Untimed (k k' : Kernel H) : Prop where
  current : k'.current = k.current
  quantum : ∀ i, (k'.tasks i).quantum = (k.tasks i).quantum
  armed : ∀ i, (k'.tasks i).armed = (k.tasks i).armed

namespace Untimed

theorem refl (k : Kernel H) : Untimed k k := ⟨rfl, fun _ => rfl, fun _ => rfl⟩

theorem trans (h : Untimed k k') (h' : Untimed k' k'') : Untimed k k'' :=
  ⟨h'.current.trans h.current, fun i => (h'.quantum i).trans (h.quantum i),
    fun i => (h'.armed i).trans (h.armed i)⟩

theorem foldl {β : Type} {f : Kernel H → β → Kernel H} (h : ∀ k b, Untimed k (f k b))
    (k : Kernel H) (l : List β) : Untimed k (l.foldl f k) := by
  induction l generalizing k with
  | nil => exact .refl k
  | cons b l ih => exact (h k b).trans (ih _)

theorem setMmu (k : Kernel H) (m : Mmu H) : Untimed k (k.setMmu m) :=
  ⟨rfl, fun _ => rfl, fun _ => rfl⟩

theorem setPipes (k : Kernel H) (pipes : ℕ → Pipe) : Untimed k (k.setPipes pipes) :=
  ⟨rfl, fun _ => rfl, fun _ => rfl⟩

theorem setTask {t : Task} (hq : t.quantum = (k.tasks i).quantum)
    (ha : t.armed = (k.tasks i).armed) : Untimed k (k.setTask i t) := by
  refine ⟨rfl, fun j => ?_, fun j => ?_⟩ <;> rw [setTask_tasks, Function.update_apply] <;> split
  · next hj => rw [hj, hq]
  · rfl
  · next hj => rw [hj, ha]
  · rfl

theorem unblock (k : Kernel H) (i : Fin kMaxTask) : Untimed k (k.unblock i) := by
  rw [Kernel.unblock]
  split
  · exact .setTask rfl rfl
  · exact .setTask rfl rfl

theorem elim_unblock (k : Kernel H) (o : Option (Fin kMaxTask)) :
    Untimed k (o.elim k k.unblock) := by
  cases o with
  | none => exact .refl k
  | some i => exact unblock k i

theorem fdUnshare (k : Kernel H) (f : OFile) : Untimed k (k.fdUnshare f) := by
  rw [Kernel.fdUnshare]
  split
  · exact .refl k
  · exact ((elim_unblock k _).trans (elim_unblock _ _)).trans (.setPipes _ _)

theorem closeIn (k : Kernel H) (i : Fin kMaxTask) (fd : Fin kMaxFd) :
    Untimed k (k.closeIn i fd) := by
  have h : Untimed k (((k.tasks i).fd fd).elim k k.fdUnshare) := by
    cases (k.tasks i).fd fd with
    | none => exact .refl k
    | some f => exact fdUnshare k f
  exact h.trans (.setTask rfl rfl)

theorem fdCloseAll (k : Kernel H) (i : Fin kMaxTask) : Untimed k (k.fdCloseAll i) := by
  refine foldl (fun k fd => ?_) k _
  split
  · exact closeIn k i fd
  · exact .refl k

theorem announce (k : Kernel H) (i : Fin kMaxTask) : Untimed k (k.announce i) := by
  rw [Kernel.announce]
  split
  · exact .refl k
  · dsimp only
    split
    · exact .refl k
    · split
      · exact .refl k
      · split
        · refine Untimed.trans ?_ (unblock _ _)
          exact .setTask rfl rfl
        · exact .setTask rfl rfl

/-- Its files are closed and its parent is told. -/
theorem ended {t : Task} (hq : t.quantum = (k.tasks i).quantum) (ha : t.armed = (k.tasks i).armed) :
    Untimed k (((k.setTask i t).fdCloseAll i).announce i) :=
  ((setTask hq ha).trans (fdCloseAll _ i)).trans (announce _ i)

theorem bury (k : Kernel H) (i : Fin kMaxTask) : Untimed k (k.bury i) := ended rfl rfl

theorem exit (k : Kernel H) (code : UInt32) : Untimed k (k.exit code) := by
  set t : Task := { k.tasks k.current with
    exitCode := code, state := .zombie
    signal := if (k.tasks k.current).state ≠ .killed then kSigNone
      else (k.tasks k.current).signal } with ht
  have h : Untimed k (((k.setTask k.current t).fdCloseAll k.current).announce k.current) :=
    ended rfl rfl
  exact h.trans (.setTask rfl rfl)

theorem killUserFault (k : Kernel H) (intNo : ℕ) : Untimed k (k.killUserFault intNo) := by
  rw [Kernel.killUserFault]
  refine Untimed.trans ?_ (exit _ _)
  exact .setTask rfl rfl

theorem signalTask (k : Kernel H) (pid : ℕ) (sig : UInt32) :
    Untimed k (k.signalTask pid sig).2 := by
  rw [Kernel.signalTask]
  split
  · exact .refl k
  · dsimp only
    split
    · exact .refl k
    · split
      · split
        · refine Untimed.trans ?_ (unblock _ _)
          exact .setTask rfl rfl
        · exact .setTask rfl rfl
      · exact .setTask rfl rfl

theorem kill (k : Kernel H) (pid : ℕ) (sig : UInt32) : Untimed k (k.kill pid sig).2 := by
  have h := signalTask k pid sig
  rw [Kernel.kill]
  generalize k.signalTask pid sig = r at h ⊢
  obtain ⟨ok, k₁⟩ := r
  dsimp only at h ⊢
  split
  · exact h
  · split
    · exact h.trans (exit _ _)
    · exact h

theorem ttyInput (owner : ℕ) (sigs : Bool) (k : Kernel H) (c : UInt8) :
    Untimed k (ttyInput owner sigs k c) := by
  rw [Kernel.ttyInput]
  split
  · dsimp only
    generalize (if owner ≠ 0 then owner else (k.tasks k.current).pid) = pid
    split
    · exact signalTask k pid kSigInt
    · exact .refl k
  · exact .refl k

theorem tickSlot (now : ℕ) (k : Kernel H) (i : Fin kMaxTask) : Untimed k (tickSlot now k i) := by
  rw [Kernel.tickSlot]
  split
  · refine Untimed.trans ?_ (unblock _ i)
    exact .setTask rfl rfl
  · split
    · exact unblock k i
    · exact .refl k

theorem kbdWake (k : Kernel H) (wait : List (Fin kMaxTask)) : Untimed k (k.kbdWake wait) :=
  foldl unblock k wait

theorem ttyDrain (w : Machine H) (keys : List UInt8) : Untimed w.k (w.ttyDrain keys).k ∧
    (w.ttyDrain keys).pending = w.pending := by
  rw [Machine.ttyDrain]
  split
  · exact ⟨.refl _, rfl⟩
  · exact ⟨(foldl (ttyInput w.owner w.sigs) w.k keys).trans (kbdWake _ _), rfl⟩

theorem onTick (w : Machine H) (keys : List UInt8) (serial : Bool) :
    Untimed w.k (w.onTick keys serial).k ∧ (w.onTick keys serial).pending = w.pending := by
  have h₁ : Untimed w.k w.ticked.k ∧ w.ticked.pending = w.pending := by
    rw [Machine.ticked]
    generalize List.finRange kMaxTask = l
    exact ⟨foldl (tickSlot _) w.k l, rfl⟩
  rw [Machine.onTick]
  generalize w.ticked = v at h₁ ⊢
  obtain ⟨h₂, hp⟩ := ttyDrain v keys
  generalize v.ttyDrain keys = w₂ at h₂ hp ⊢
  split
  · exact ⟨(h₁.1.trans h₂).trans (kbdWake _ _), hp.trans h₁.2⟩
  · exact ⟨h₁.1.trans h₂, hp.trans h₁.2⟩

theorem collect (k : Kernel H) (pid : ℕ) : Untimed k (k.collect pid) := by
  rw [Kernel.collect]
  cases ht : takeDone (k.tasks k.current) pid with
  | none => exact .refl k
  | some r =>
    obtain ⟨i, -, h⟩ := Option.bind_eq_some_iff.mp ht
    obtain ⟨n, hn, rfl⟩ := Option.map_eq_some_iff.mp h
    exact .setTask rfl rfl

theorem block (k : Kernel H) : Untimed k k.block.2 := by
  rw [Kernel.block]
  split
  · exact .refl k
  · split
    · exact .setTask rfl rfl
    · exact .setTask rfl rfl

variable [PageAlloc H]

theorem destroy (k : Kernel H) (i : Fin kMaxTask) : Untimed k (k.destroy i) := by
  rw [Kernel.destroy]
  split
  · exact .refl k
  · exact (setMmu k _).trans (.setTask rfl rfl)

theorem reap (h : k.reap = some k') : Untimed k k' := by
  rw [Kernel.reap] at h
  split at h
  · exact absurd h.symm (Option.some_ne_none k')
  · rw [← Option.some.inj h]
    refine foldl (fun k i => ?_) k _
    have hb : Untimed k (if (k.tasks i).state = .killed then k.bury i else k) := by
      split
      · exact bury k i
      · exact .refl k
    rw [reapSlot]
    generalize (if (k.tasks i).state = .killed then k.bury i else k) = k₁ at hb ⊢
    split
    · exact hb
    · exact hb.trans (destroy k₁ i)

end Untimed

/-! ## Switches -/

/-- Whoever is switched to has a whole slice. -/
theorem switchTo_quantum (k : Kernel H) (j : Fin kMaxTask) :
    ((k.switchTo j).tasks j).quantum = kQuantum := by
  set k₁ := if (k.tasks k.current).state = .running then
    k.setTask k.current { k.tasks k.current with state := .ready } else k with hk₁
  set t : Task := { k₁.tasks j with state := .running, quantum := kQuantum } with ht
  set t' := if !t.inSyscall && t.regs.fromUser then delivered t else t with ht'
  have he : (k.switchTo j).tasks j = t' := by
    change (k₁.setTask j t').tasks j = t'
    rw [setTask_tasks, Function.update_self]
  rw [he, ht']
  split
  · obtain ⟨r, pending, mask, saved, active, h⟩ := delivered_eq t
    rw [h]
  · rfl

/-- A task that does not run was as ready before the switch. -/
theorem switchTo_ready (hi : i ≠ k.current) (hj : i ≠ j)
    (hs : ((k.switchTo j).tasks i).state = .ready) : (k.tasks i).state = .ready := by
  rw [(switchTo_spec k j).2.2, if_neg hj, if_neg fun h => hi h.1] at hs
  exact hs

section

variable [PageAlloc H]

/-- The end of `preempt`, once somebody else is looked for. -/
inductive Rest (k : Kernel H) : Bool → Kernel H → Prop where
  | stays {k' : Kernel H} (h : Untimed k k') (hp : k'.pick = none ∨ k'.pick = some k'.current) :
      Rest k false k'
  | switches {k' : Kernel H} {j : Fin kMaxTask} (h : Untimed k k') (hp : k'.pick = some j) :
      Rest k true (k'.switchTo j)

theorem rest_of_map {b : Bool} (h : (k.reap.map fun k =>
    match k.pick with
    | none => (false, k)
    | some dst => if dst = k.current then (false, k) else (true, k.switchTo dst)) = some (b, k')) :
    Rest k b k' := by
  obtain ⟨k₂, hk₂, he⟩ := Option.map_eq_some_iff.mp h
  have hu := Untimed.reap hk₂
  cases hp : k₂.pick with
  | none =>
    rw [hp] at he
    obtain ⟨rfl, rfl⟩ := Prod.mk.inj he
    exact .stays hu (Or.inl hp)
  | some dst =>
    rw [hp] at he
    dsimp only at he
    split at he
    · next hd =>
      obtain ⟨rfl, rfl⟩ := Prod.mk.inj he
      exact .stays hu (Or.inr (hd ▸ hp))
    · obtain ⟨rfl, rfl⟩ := Prod.mk.inj he
      exact .switches hu hp

/-- What the end of a tick does to the time slice. -/
inductive Sliced (k : Kernel H) (r : Registers) : Bool → Kernel H → Prop where
  | inKernel (h : r.fromUser = false) : Sliced k r false k
  | spent (h : r.fromUser = true) (hq : 1 < (k.tasks k.current).quantum) :
      Sliced k r false (k.setTask k.current
        { k.tasks k.current with quantum := (k.tasks k.current).quantum - 1 })
  | ended {k₁ k' : Kernel H} {b : Bool} (hc : k₁.current = k.current)
      (hq : (k₁.tasks k.current).quantum ≤ (k.tasks k.current).quantum)
      (ha : ∀ j, (k₁.tasks j).armed = (k.tasks j).armed) (hr : Rest k₁ b k') : Sliced k r b k'

theorem preempt_sliced {r : Registers} {b : Bool} (h : k.preempt r = some (b, k')) :
    Sliced k r b k' := by
  rw [preempt] at h
  dsimp only at h
  split at h
  · exact .ended rfl le_rfl (fun _ => rfl) (rest_of_map h)
  · split at h
    · next hu =>
      obtain ⟨rfl, rfl⟩ := Prod.mk.inj (Option.some.inj h)
      exact .inKernel (by simpa using hu)
    · next hu =>
      split at h
      · next hq =>
        obtain ⟨rfl, rfl⟩ := Prod.mk.inj (Option.some.inj h)
        exact .spent (by simpa using hu) (by omega)
      · have hr := rest_of_map h
        refine .ended ?_ ?_ (fun j => ?_) hr
        · rfl
        · rw [setTask_tasks, Function.update_self]
          exact Nat.zero_le _
        · rw [setTask_tasks, Function.update_apply]
          split
          · next hj => rw [hj]
          · rfl

end

end Kernel

namespace Machine

open Kernel

variable {H : Type} {w w' : Machine H} {op : Op H} {i j : Fin kMaxTask}

/-- Ready, armed, and not the current task. -/
structure Waits (w : Machine H) (i : Fin kMaxTask) : Prop where
  /-- It is ready, -/
  ready : (w.k.tasks i).state = .ready
  /-- may be chosen, -/
  armed : (w.k.tasks i).armed = true
  /-- and is not the current one. -/
  waits : i ≠ w.k.current

instance (w : Machine H) (i : Fin kMaxTask) : Decidable (w.Waits i) :=
  decidable_of_iff ((w.k.tasks i).state = .ready ∧ (w.k.tasks i).armed = true ∧ i ≠ w.k.current)
    ⟨fun ⟨h₁, h₂, h₃⟩ => ⟨h₁, h₂, h₃⟩, fun ⟨h₁, h₂, h₃⟩ => ⟨h₁, h₂, h₃⟩⟩

/-- A tick that finds the processor in user mode. -/
def userTick : Op H → Bool
  | .preempt r => r.fromUser
  | _ => false

/-- No call gives the task that makes it more time. -/
def Timely (w : Machine H) : Op H → Prop
  | .work t => t.quantum = (w.k.tasks w.k.current).quantum
  | _ => True

instance (w : Machine H) : (op : Op H) → Decidable (w.Timely op)
  | .work _ => inferInstanceAs (Decidable (_ = _))
  | .create _ | .arm _ | .fork _ | .destroy _ | .becomeFirst | .block | .unblock _
  | .resumeAfterExec | .reap | .pick | .switch | .kill .. | .fault _ | .exit _ | .tick ..
  | .preempt _ | .key | .drain _ | .collect _ | .outside .. => isTrue trivial

/-- What is left of the time slice. -/
def slice (w : Machine H) : ℕ := (w.k.tasks w.k.current).quantum

/-- What an operation has to do with who runs, and for how long. -/
inductive Moves (w : Machine H) (op : Op H) (w' : Machine H) : Prop where
  | stays (hu : userTick op = false) (hc : w'.k.current = w.k.current) (hq : w'.slice = w.slice)
      (hp : w'.pending = w.pending ∨ w'.pending = none ∨ w'.pending = w.k.pick)
  | spends (hc : w'.k.current = w.k.current) (hq : w'.slice + 1 = w.slice) (hs : 0 < w'.slice)
      (hp : w'.pending = w.pending)
  | stalls {k : Kernel H} (hk : w'.k = k) (hc : k.current = w.k.current)
      (hq : w'.slice ≤ w.slice) (ha : ∀ j, (k.tasks j).armed = (w.k.tasks j).armed)
      (hn : k.pick = none ∨ k.pick = some k.current) (hp : w'.pending = w.pending)
  | switches {k : Kernel H} {j : Fin kMaxTask} (hk : w'.k = k.switchTo j)
      (hc : k.current = w.k.current)
      (hj : w.pending = some j ∧ k = w.k ∧ userTick op = false ∨
        k.pick = some j ∧ ∀ j, (k.tasks j).armed = (w.k.tasks j).armed)
      (hp : w'.pending = none)

/-- Nobody has more time or less. -/
theorem Moves.of_untimed (hu : userTick op = false) (h : Untimed w.k w'.k)
    (hp : w'.pending = w.pending) : Moves w op w' := by
  refine .stays hu h.current ?_ (Or.inl hp)
  rw [slice, h.current, h.quantum, slice]

/-- A slot that was free is filled, which is not that of the current task. -/
theorem Moves.of_spawn {k : Kernel H} {slot : Fin kMaxTask} {t : Task}
    {m : Mmu H} {pipes : ℕ → Pipe}
    (hu : userTick op = false) (h : w.Table) (hslot : w.k.freeSlot = some slot) (hk : Untimed w.k k)
    (hw : w'.k = ((k.setMmu m).setTask slot t).setPipes pipes) (hp : w'.pending = w.pending) :
    Moves w op w' := by
  have hne : w.k.current ≠ slot := by
    rintro rfl
    exact h.kernel.current (freeSlot_eq_some hslot).2
  have hc : w'.k.current = w.k.current := by rw [hw]; exact hk.current
  refine .stays hu hc ?_ (Or.inl hp)
  rw [slice, hc, hw, setPipes_tasks, setTask_tasks, Function.update_of_ne hne, setMmu_tasks,
    hk.quantum, slice]

variable [PageAlloc H]

theorem moves_preempt {r : Registers} (hst : w.step (.preempt r) = some w') :
    Moves w (.preempt r) w' := by
  obtain ⟨⟨b, k'⟩, hpre, rfl⟩ := Option.map_eq_some_iff.mp hst
  cases preempt_sliced hpre with
  | inKernel h => exact .stays h rfl rfl (Or.inl rfl)
  | spent h hq =>
    have hslice : ∀ q p, slice { w with
        k := w.k.setTask w.k.current { w.k.tasks w.k.current with quantum := q }
        pending := p } = q := fun q p => by
      rw [slice, setTask_current, setTask_tasks, Function.update_self]
    refine .spends rfl ?_ ?_ rfl
    · rw [hslice, slice]
      omega
    · rw [hslice]
      omega
  | ended hc hq ha hr =>
    cases hr with
    | stays h hn =>
      refine .stalls rfl (h.current.trans hc) ?_ (fun j => (h.armed j).trans (ha j)) hn rfl
      rw [slice, h.current, hc, h.quantum]
      exact hq
    | switches h hj =>
      exact .switches rfl (h.current.trans hc) (Or.inr ⟨hj, fun j => (h.armed j).trans (ha j)⟩) rfl

/-- **One operation.** -/
theorem moves_step (h : w.Table) (ha : w.Allowed op) (ht : w.Timely op)
    (hst : w.step op = some w') :
    Moves w op w' := by
  cases op with
  | create name =>
    obtain rfl := Option.some.inj hst
    rcases create_spec w.k name with he | ⟨slot, t, m, pipes, hslot, he, -⟩
    · exact .of_untimed rfl (by rw [setKernel_k, he]; exact .refl _) rfl
    · exact .of_spawn rfl h hslot (.refl _) he rfl
  | fork frame =>
    obtain rfl := Option.some.inj hst
    rcases forkUser_table w.k frame with he | ⟨slot, t, m, pipes, hslot, he, -⟩
    · exact .of_untimed rfl (by rw [setKernel_k, he]; exact .refl _) rfl
    · have hk : Untimed w.k (w.k.purgeNotes (slot + 1)) := ⟨rfl, fun _ => rfl, fun _ => rfl⟩
      exact .of_spawn rfl h hslot hk he rfl
  | arm i =>
    obtain rfl := Option.some.inj hst
    refine .stays rfl rfl ?_ (Or.inl rfl)
    change ((w.k.setTask i { w.k.tasks i with armed := true }).tasks w.k.current).quantum = _
    rw [setTask_tasks, Function.update_apply]
    split
    · next hi => rw [slice, hi]
    · rfl
  | destroy i =>
    obtain rfl := Option.some.inj hst
    exact .of_untimed rfl (Untimed.destroy w.k i) rfl
  | becomeFirst =>
    obtain rfl := Option.some.inj hst
    exact .of_untimed rfl (Untimed.setTask rfl rfl) rfl
  | block =>
    obtain rfl := Option.some.inj hst
    exact .of_untimed rfl (Untimed.block w.k) rfl
  | unblock i =>
    obtain rfl := Option.some.inj hst
    exact .of_untimed rfl (Untimed.unblock w.k i) rfl
  | resumeAfterExec =>
    obtain rfl := Option.some.inj hst
    exact .of_untimed rfl (Untimed.setTask rfl rfl) rfl
  | reap =>
    obtain ⟨k', hk', rfl⟩ := Option.map_eq_some_iff.mp hst
    exact .of_untimed rfl (Untimed.reap hk') rfl
  | pick =>
    obtain rfl := Option.some.inj hst
    exact .stays rfl rfl rfl (Or.inr (Or.inr rfl))
  | switch =>
    rw [Machine.step] at hst
    cases hp : w.pending with
    | none =>
      rw [hp] at hst
      obtain rfl := Option.some.inj hst
      exact .of_untimed rfl (.refl _) rfl
    | some dst =>
      rw [hp] at hst
      obtain rfl := Option.some.inj hst
      exact .switches rfl rfl (Or.inl ⟨hp, rfl, rfl⟩) rfl
  | kill pid sig =>
    obtain rfl := Option.some.inj hst
    exact .of_untimed rfl (Untimed.kill w.k pid sig) rfl
  | fault intNo =>
    obtain rfl := Option.some.inj hst
    exact .of_untimed rfl (Untimed.killUserFault w.k intNo) rfl
  | exit code =>
    obtain rfl := Option.some.inj hst
    exact .of_untimed rfl (Untimed.exit w.k code) rfl
  | tick keys serial =>
    obtain rfl := Option.some.inj hst
    exact .of_untimed rfl (Untimed.onTick w keys serial).1 (Untimed.onTick w keys serial).2
  | preempt r => exact moves_preempt hst
  | key =>
    obtain rfl := Option.some.inj hst
    exact .of_untimed rfl (Untimed.kbdWake w.k _) rfl
  | drain keys =>
    obtain rfl := Option.some.inj hst
    exact .of_untimed rfl (Untimed.ttyDrain w keys).1 (Untimed.ttyDrain w keys).2
  | collect pid =>
    obtain rfl := Option.some.inj hst
    exact .of_untimed rfl (Untimed.collect w.k pid) rfl
  | work t =>
    obtain rfl := Option.some.inj hst
    refine .stays rfl rfl ?_ (Or.inl rfl)
    rw [slice, setKernel_k, setTask_current, setTask_tasks, Function.update_self]
    exact ht
  | outside mmu pipes kbdWait owner sigs =>
    obtain rfl := Option.some.inj hst
    exact .of_untimed rfl ((Untimed.setMmu w.k mmu).trans (.setPipes _ pipes)) rfl

omit [PageAlloc H] in
/-- A slice is never longer than a whole one. -/
theorem Moves.slice_le (h : Moves w op w') (hs : w.slice ≤ kQuantum) : w'.slice ≤ kQuantum := by
  cases h with
  | stays hu hc hq hp => exact hq.trans_le hs
  | spends hc hq h hp => omega
  | stalls hk hc hq ha hn hp => exact hq.trans hs
  | switches hk hc hj hp =>
    rw [slice, hk, (switchTo_spec _ _).1, switchTo_quantum]

/-! ## Who waits -/

/-- Nobody was chosen who is farther away than `i`. -/
def Due (w : Machine H) (i : Fin kMaxTask) : Prop :=
  ∀ j, w.pending = some j → turn w.k.current j ≤ turn w.k.current i

/-- A bound for the ticks in user mode until `i` has its turn. -/
def patience (w : Machine H) (i : Fin kMaxTask) : ℕ :=
  (turn w.k.current i - 1) * kQuantum + max 1 w.slice

omit [PageAlloc H] in
/-- With a whole slice for somebody nearer there is less to wait. -/
theorem patience_lt (hs : w'.slice = kQuantum) (ht : turn w'.k.current i < turn w.k.current i) :
    w'.patience i < w.patience i := by
  have hpos := turn_pos w'.k.current i
  rw [patience, patience, hs]
  simp only [kQuantum]
  omega

omit [PageAlloc H] in
/-- **A switch brings the turn nearer**, and anything else leaves it where it is. -/
theorem Moves.waits (h : Moves w op w') (hw : w.Waits i) (hw' : w'.Waits i) (hd : w.Due i) :
    w'.Due i ∧ (w'.k.current = w.k.current ∧ w'.patience i ≤ w.patience i ∧
        (userTick op = true → w'.patience i < w.patience i) ∨
      turn w'.k.current i < turn w.k.current i ∧ w'.patience i < w.patience i) := by
  cases h with
  | stays hu hc hq hp =>
    refine ⟨fun j hj => ?_, Or.inl ⟨hc, ?_, fun ht => ?_⟩⟩
    · rw [hc]
      rcases hp with hp | hp | hp
      · exact hd j (hp ▸ hj)
      · rw [hp] at hj
        cases hj
      · obtain ⟨j', hj', hle⟩ := pick_turn hw.ready hw.armed
        rw [hp, hj'] at hj
        exact Option.some.inj hj ▸ hle
    · rw [patience, patience, hc, hq]
    · rw [hu] at ht
      exact absurd ht Bool.false_ne_true
  | spends hc hq hs hp =>
    have hlt : w'.patience i < w.patience i := by
      rw [patience, patience, hc]
      omega
    refine ⟨fun j hj => ?_, Or.inl ⟨hc, hlt.le, fun _ => hlt⟩⟩
    rw [hc]
    exact hd j (hp ▸ hj)
  | stalls hk hc hq ha hn hp =>
    -- Task `i` would have been found, and it is not the current one.
    subst hk
    obtain ⟨j, hj, hle⟩ := pick_turn hw'.ready hw'.armed
    have hlt := turn_le_of_ne hw'.waits
    rcases hn with hn | hn
    · rw [hn] at hj
      cases hj
    · rw [hn] at hj
      obtain rfl := Option.some.inj hj
      rw [turn_self] at hle
      omega
  | @switches k j hk hc hj hp =>
    have hcur : w'.k.current = j := by rw [hk, (switchTo_spec k j).1]
    have hij : i ≠ j := hcur ▸ hw'.waits
    have hic : i ≠ k.current := hc ▸ hw.waits
    have hle : turn k.current j ≤ turn k.current i := by
      rcases hj with ⟨hj, rfl, -⟩ | ⟨hj, ha⟩
      · exact hd j hj
      · have hready := switchTo_ready hic hij (hk ▸ hw'.ready)
        obtain ⟨j', hj', hle⟩ := pick_turn hready ((ha i).trans hw.armed)
        rw [hj] at hj'
        exact Option.some.inj hj' ▸ hle
    have hlt : turn w'.k.current i < turn w.k.current i := by
      have := turn_add hij.symm hle
      have := turn_pos k.current j
      rw [hcur, ← hc]
      omega
    refine ⟨fun j hj => ?_, Or.inr ⟨hlt, patience_lt ?_ hlt⟩⟩
    · rw [hp] at hj
      cases hj
    · rw [slice, hcur, hk, switchTo_quantum]

/-! ## Runs -/

/-- The first `n` operations of a list can happen one after the other, and no call gives its task
more time. -/
def Course (w : Machine H) (ops : List (Op H)) (n : ℕ) : Prop :=
  ∀ t < n, ∃ op ∈ ops[t]?, (w.follow ops t).Allowed op ∧ (w.follow ops t).Timely op ∧
    ((w.follow ops t).step op).isSome

variable {w₀ : Machine H} {ops : List (Op H)} {n s : ℕ}

theorem Course.table (h : Course w₀ ops n) (h₀ : w₀.Table) (t : ℕ) (ht : t ≤ n) :
    (w₀.follow ops t).Table := by
  induction t with
  | zero => exact h₀
  | succ t ih =>
    obtain ⟨op, hop, ha, -, hst⟩ := h t ht
    exact (ih (by omega)).step ha (follow_succ hop hst)

theorem Course.moves (h : Course w₀ ops n) (h₀ : w₀.Table) {t : ℕ} (ht : t < n) :
    ∃ op ∈ ops[t]?, Moves (w₀.follow ops t) op (w₀.follow ops (t + 1)) := by
  obtain ⟨op, hop, ha, hq, hst⟩ := h t ht
  exact ⟨op, hop, moves_step (h.table h₀ t ht.le) ha hq (follow_succ hop hst)⟩

theorem Course.slice_le (h : Course w₀ ops n) (h₀ : w₀.Table) (hs : w₀.slice ≤ kQuantum) (t : ℕ)
    (ht : t ≤ n) : (w₀.follow ops t).slice ≤ kQuantum := by
  induction t with
  | zero => exact hs
  | succ t ih =>
    obtain ⟨op, -, hm⟩ := h.moves h₀ ht
    exact hm.slice_le (ih (by omega))

/-- While `i` waits nobody is chosen who is farther away. -/
theorem Course.due (h : Course w₀ ops n) (h₀ : w₀.Table) (hp : (w₀.follow ops s).pending = none)
    (hw : ∀ t, s ≤ t → t ≤ n → (w₀.follow ops t).Waits i) {t : ℕ} (hs : s ≤ t) (ht : t ≤ n) :
    (w₀.follow ops t).Due i := by
  induction t, hs using Nat.le_induction with
  | base =>
    intro j hj
    rw [hp] at hj
    cases hj
  | succ t hs ih =>
    obtain ⟨op, -, hm⟩ := h.moves h₀ ht
    exact (hm.waits (hw t hs (by omega)) (hw (t + 1) (by omega) ht) (ih (by omega))).1

/-- What the operation `t` of a run does while `i` waits. -/
theorem Course.turn_step (h : Course w₀ ops n) (h₀ : w₀.Table)
    (hp : (w₀.follow ops s).pending = none)
    (hw : ∀ t, s ≤ t → t ≤ n → (w₀.follow ops t).Waits i) {t : ℕ} (hs : s ≤ t) (ht : t < n) :
    ∃ op ∈ ops[t]?,
      ((w₀.follow ops (t + 1)).k.current = (w₀.follow ops t).k.current ∧
          (w₀.follow ops (t + 1)).patience i ≤ (w₀.follow ops t).patience i ∧
          (userTick op = true → (w₀.follow ops (t + 1)).patience i < (w₀.follow ops t).patience i) ∨
        turn (w₀.follow ops (t + 1)).k.current i < turn (w₀.follow ops t).k.current i ∧
          (w₀.follow ops (t + 1)).patience i < (w₀.follow ops t).patience i) := by
  obtain ⟨op, hop, hm⟩ := h.moves h₀ ht
  exact ⟨op, hop, (hm.waits (hw t hs ht.le) (hw (t + 1) (by omega) ht) (h.due h₀ hp hw hs ht.le)).2⟩

/-- **Everybody has a turn.** While a task waits, ready and armed, the processor changes hands at
most six times, each time to a task that has not run since it began to wait; and fewer than fourteen
ticks find the processor in user mode. -/
theorem turn_comes {m : Mmu H} {kstack : ℕ} {kernCode : UInt32}
    (h : Course (boot m kstack kernCode) ops n) (hs : s ≤ n)
    (hp : ((boot m kstack kernCode).follow ops s).pending = none)
    (hw : ∀ t, s ≤ t → t ≤ n → ((boot m kstack kernCode).follow ops t).Waits i) :
    let run := (boot m kstack kernCode).follow ops
    ((Finset.Ico s n).filter fun t => (run (t + 1)).k.current ≠ (run t).k.current).card
        ≤ kMaxTask - 2 ∧
      (∀ a b, s ≤ a → a ≤ b → b < n → (run (b + 1)).k.current ≠ (run b).k.current →
        (run (b + 1)).k.current ≠ (run a).k.current) ∧
      ((Finset.Ico s n).filter fun t => ∃ op ∈ ops[t]?, userTick op = true).card
        < (kMaxTask - 1) * kQuantum := by
  intro run
  have h₀ := table_boot m kstack kernCode
  have hstep := fun t (ha : s ≤ t) (hb : t < n) => h.turn_step h₀ hp hw ha hb
  let f := fun t => turn (run t).k.current i
  have hturn : ∀ t, s ≤ t → t < n → f (t + 1) ≤ f t ∧
      ((run (t + 1)).k.current ≠ (run t).k.current → f (t + 1) < f t) := by
    intro t ha hb
    obtain ⟨op, -, ⟨hc, -⟩ | ⟨hlt, -⟩⟩ := hstep t ha hb
    · have he : f (t + 1) = f t := congrArg (turn · i) hc
      exact ⟨he.le, fun hne => absurd hc hne⟩
    · exact ⟨hlt.le, fun _ => hlt⟩
  have hfirst : turn (run s).k.current i ≤ kMaxTask - 1 := turn_le_of_ne (hw s le_rfl hs).waits
  refine ⟨?_, fun a b ha hab hb hne => ?_, ?_⟩
  · have := Potential.card_add_le hs (fun t ha hb => (hturn t ha hb).1)
      fun t ha hb => (hturn t ha hb).2
    have hpos : 0 < f n := turn_pos _ _
    have hle : f s ≤ kMaxTask - 1 := hfirst
    omega
  · have hle := Potential.antitone_of_step (fun t ha hb => (hturn t ha hb).1) ha hab hb.le
    have hlt := (hturn b (ha.trans hab) hb).2 hne
    intro he
    have : f (b + 1) = f a := congrArg (turn · i) he
    omega
  · have := Potential.card_add_le (f := fun t => (run t).patience i)
      (P := fun t => ∃ op ∈ ops[t]?, userTick op = true) hs
      (fun t ha hb => by
        obtain ⟨op, -, ⟨-, hle, -⟩ | ⟨-, hlt⟩⟩ := hstep t ha hb
        · exact hle
        · exact hlt.le)
      fun t ha hb ⟨op', hop', hu⟩ => by
        obtain ⟨op, hop, ⟨-, -, hlt⟩ | ⟨-, hlt⟩⟩ := hstep t ha hb
        · obtain rfl := Option.mem_unique hop hop'
          exact hlt hu
        · exact hlt
    have hsl : (run s).slice ≤ kQuantum := h.slice_le h₀ (le_refl kQuantum) s hs
    simp only [patience, kQuantum, kMaxTask] at this hsl hfirst ⊢
    omega

/-- Two tasks are made, and the processor is found in user mode three times. -/
def threeTicks : List (Op Pages.Bump) :=
  [.create [], .arm 1, .create [], .arm 2,
    .preempt { Registers.zero with cs := 0x1B }, .preempt { Registers.zero with cs := 0x1B },
    .preempt { Registers.zero with cs := 0x1B }]

theorem turn_comes_threeTicks : (startup.follow threeTicks 6).k.current = 1 ∧
    ((Finset.Ico 4 7).filter fun t => (startup.follow threeTicks (t + 1)).k.current
      ≠ (startup.follow threeTicks t).k.current).card ≤ kMaxTask - 2 := by
  have h : Course startup threeTicks 7 := by
    unfold Course
    decide +kernel
  exact ⟨by decide +kernel,
    (turn_comes h (s := 4) (i := 2) (by decide) (by decide +kernel) (by decide +kernel)).1⟩

end Machine

end Aurisys
