import Aurisys.Kernel.Spared

/-!
# Sleeping

`sleep_ticks` writes down the tick at which it wants to be woken and blocks. The clock has 32 bits
and starts again at zero, the deadline is compared with it as a number, and zero stands for no
deadline; and `block` returns at once to a task that was woken when it was not asleep. So a task may
wake up too early, or never.

## Main definitions

* `SleepMachine` — the machine with its clock of 32 bits, and which tasks are in `sleep_ticks`
* `OnTime` — the deadline is met by the clock when it should be
* `Unhurried` — nothing but the clock and signals is going to wake a task that sleeps

## Main results

* `sleeps_as_long_as_asked` — then a task sleeps exactly as long as it asked to
-/

namespace Aurisys

open Kernel

/-- Interrupted. -/
def kErrIntr : ℤ := 4

/-- A call of `sleep_ticks` that has parked: what it was asked for, what the clock showed, and how
many ticks there were since. -/
structure Nap where
  asked : ℕ
  start : ℕ
  passed : ℕ

/-- The machine, with `ticks` as a number of 32 bits, and the tasks that are in `sleep_ticks`. -/
structure SleepMachine (H : Type) where
  w : Machine H
  nap : Fin kMaxTask → Option Nap

/-- What can happen. -/
inductive SleepOp (H : Type) where
  | sleep (n : UInt32)
  | resume
  | tick (keys : List UInt8) (serial : Bool)
  /-- What has nothing to do with the clock. -/
  | plain (op : Op H)

namespace SleepMachine

variable {H : Type}

def current (σ : SleepMachine H) : Fin kMaxTask := σ.w.k.current

/-- The table entry of the task that runs. -/
def task (σ : SleepMachine H) : Task := σ.w.k.tasks σ.current

/-- The first half of `on_tick`: who has slept long enough, or has a signal, is woken. -/
def ticked (w : Machine H) : Machine H :=
  { w with
    k := (List.finRange kMaxTask).foldl (tickSlot ((w.ticks + 1) % 2 ^ 32)) w.k
    ticks := (w.ticks + 1) % 2 ^ 32 }

/-- `on_tick`. -/
def onTick (w : Machine H) (keys : List UInt8) (serial : Bool) : Machine H :=
  let w := (ticked w).ttyDrain keys
  if serial then w.wake else w

/-- What `sleep_ticks` does when `block` has returned. -/
def awake (σ : SleepMachine H) : ℤ × SleepMachine H :=
  (if σ.task.sigPending ≠ 0 then -kErrIntr else 0,
    { w := σ.w.setKernel (σ.w.k.setTask σ.current { σ.task with sleepUntil := 0 })
      nap := Function.update σ.nap σ.current none })

/-- `sleep_ticks`, up to `schedule` when the task parks: what it returns, if it does. -/
def sleepTicks (σ : SleepMachine H) (n : UInt32) : Option ℤ × SleepMachine H :=
  if n = 0 then (some 0, σ)
  else if σ.task.sigPending ≠ 0 then (some (-kErrIntr), σ)
  else
    let k := σ.w.k.setTask σ.current
      { σ.task with sleepUntil := (σ.w.ticks + n.toNat) % 2 ^ 32 }
    let (parked, k) := k.block
    if parked then
      (none, ⟨σ.w.setKernel k, Function.update σ.nap σ.current (some ⟨n.toNat, σ.w.ticks, 0⟩)⟩)
    else
      let (r, σ) := awake ⟨σ.w.setKernel k, σ.nap⟩
      (some r, σ)

/-- A task that parked has been switched to, and goes on. -/
def resume (σ : SleepMachine H) : ℤ × SleepMachine H :=
  awake ⟨σ.w.setKernel (σ.w.k.setTask σ.current { σ.task with wakePending := false }), σ.nap⟩

/-- When an operation can happen. A call is made when no other is; a task in `sleep_ticks` is not in
user mode, and does not wait for a child. -/
def Allowed (σ : SleepMachine H) : SleepOp H → Prop
  | .sleep _ => σ.nap σ.current = none ∧ σ.w.pending = none ∧ σ.task.state ≠ .blocked ∧
      σ.task.waiting = false
  | .resume => σ.nap σ.current ≠ none ∧ σ.w.pending = none ∧ σ.task.state ≠ .blocked ∧
      σ.task.state ≠ .ready
  | .tick .. => True
  | .plain op => σ.w.Allowed op ∧
      match op with
      | .tick .. => False
      | .preempt r => σ.nap σ.current ≠ none → r.fromUser = false
      | .key | .switch | .reap | .pick => True
      | _ => σ.nap σ.current = none

/-- A new process is in no call. -/
def freshNap (σ : SleepMachine H) : Op H → Fin kMaxTask → Option Nap
  | .fork _ | .create _ => σ.w.k.freeSlot.elim σ.nap fun slot => Function.update σ.nap slot none
  | _ => σ.nap

section

variable [PageAlloc H]

/-- One operation, and what `sleep_ticks` returns if it does; `none` is a panic. -/
def step (σ : SleepMachine H) : SleepOp H → Option (Option ℤ × SleepMachine H)
  | .sleep n => some (σ.sleepTicks n)
  | .resume => some (some σ.resume.1, σ.resume.2)
  | .tick keys serial => some (none,
      ⟨onTick σ.w keys serial, fun i => (σ.nap i).map fun n => { n with passed := n.passed + 1 }⟩)
  | .plain op => (σ.w.step op).map fun w => (none, ⟨w, σ.freshNap op⟩)

/-- The states that operations lead to, when each is one that `ok` permits; the clock may show
anything at first. -/
inductive SleepReaches (ok : SleepMachine H → SleepOp H → Prop) : SleepMachine H → Prop where
  | start (w : Machine H) (ht : w.ticks < 2 ^ 32) (hp : w.pending = none) :
      SleepReaches ok ⟨w, fun _ => none⟩
  | step {σ σ' : SleepMachine H} {op : SleepOp H} {r : Option ℤ} (hr : SleepReaches ok σ)
      (ha : σ.Allowed op) (hs : ok σ op) (hst : σ.step op = some (r, σ')) : SleepReaches ok σ'

end

/-! ## The deadline -/

/-- The deadline is met by the clock when it should be: it does not wrap around, or the clock does
at the next tick and there is one more to wait for. -/
def OnTime (now n : ℕ) : Prop := now + n < 2 ^ 32 ∨ now + 1 = 2 ^ 32 ∧ 1 < n

instance (now n : ℕ) : Decidable (OnTime now n) := inferInstanceAs (Decidable (_ ∨ _))

theorem OnTime.met_iff {now n c : ℕ} (h : OnTime now n) (hn : n < 2 ^ 32) (hc : c < n) :
    (now + n) % 2 ^ 32 ≠ 0 ∧ ((now + n) % 2 ^ 32 ≤ (now + c + 1) % 2 ^ 32 ↔ c + 1 = n) := by
  rcases h with h | ⟨h, h1⟩
  · rw [Nat.mod_eq_of_lt h, Nat.mod_eq_of_lt (by omega)]
    omega
  · have he : (now + n) % 2 ^ 32 = n - 1 := by
      rw [show now + n = n - 1 + 2 ^ 32 by omega, Nat.add_mod_right, Nat.mod_eq_of_lt (by omega)]
    have hc' : (now + c + 1) % 2 ^ 32 = c := by
      rw [show now + c + 1 = c + 2 ^ 32 by omega, Nat.add_mod_right, Nat.mod_eq_of_lt (by omega)]
    rw [he, hc']
    omega

/-- Nothing but the clock and signals is going to wake a task that sleeps: no list of those who wait
has it, nobody wakes it by name, and signal 0, which is none, has no handler. A task that is going
to sleep was not told to go on before, and its deadline is met when it should be. -/
def Unhurried (σ : SleepMachine H) (op : SleepOp H) : Prop :=
  (∀ i, σ.nap i ≠ none → i ∉ σ.w.kbdWait ∧ (∀ a d, (σ.w.k.pipes a).place d ≠ some i) ∧
    ¬Handled (σ.w.k.tasks i) 0) ∧
  match op with
  | .sleep n => n ≠ 0 → σ.task.sigPending = 0 →
      σ.task.wakePending = false ∧ OnTime σ.w.ticks n.toNat
  | .plain (.unblock i) => σ.nap i = none
  | _ => True

/-! ## One task -/

/-- A task that has not slept long enough: unless a signal came it is blocked, and its deadline is
the right one. Unless a signal came it was not chosen to run. -/
structure Sleeps (σ : SleepMachine H) (i : Fin kMaxTask) (n : Nap) : Prop where
  /-- The time is a word. -/
  asked : n.asked < 2 ^ 32
  /-- The clock comes to its end. -/
  onTime : OnTime n.start n.asked
  /-- The clock shows what has passed. -/
  clock : σ.w.ticks = (n.start + n.passed) % 2 ^ 32
  waiting : (σ.w.k.tasks i).waiting = false
  inSyscall : (σ.w.k.tasks i).inSyscall = true
  /-- Only a signal wakes it, -/
  chosen : σ.w.pending = some i → (σ.w.k.tasks i).sigPending ≠ 0
  /-- and without one it is blocked until its time. -/
  asleep : (σ.w.k.tasks i).Quiet → (σ.w.k.tasks i).state = .blocked ∧
    (σ.w.k.tasks i).sleepUntil = (n.start + n.asked) % 2 ^ 32

variable {σ σ' : SleepMachine H} {i : Fin kMaxTask} {n : Nap} {w : Machine H}

/-- What leaves it alone. -/
theorem Sleeps.spared (h : σ.Sleeps i n) {nap : Fin kMaxTask → Option Nap} {p : ℕ}
    (hs : (σ.w.k.tasks i).Spared (w.k.tasks i)) (ht : w.ticks = (n.start + p) % 2 ^ 32)
    (hp : w.pending = some i → σ.w.pending = some i ∨ (w.k.tasks i).sigPending ≠ 0) :
    Sleeps ⟨w, nap⟩ i { n with passed := p } where
  asked := h.asked
  onTime := h.onTime
  clock := ht
  waiting := hs.waiting.trans h.waiting
  inSyscall := hs.inSyscall.trans h.inSyscall
  chosen hi := (hp hi).elim (fun hi => hs.signalled (h.chosen hi)) id
  asleep hq := by
    obtain ⟨hq', hu, hb⟩ := hs.quiet hq
    obtain ⟨hb', hu'⟩ := h.asleep hq'
    exact ⟨hb.mpr hb', hu.trans hu'⟩

/-- Everybody who has not slept long enough sleeps. -/
structure Asleep (σ : SleepMachine H) : Prop where
  /-- The clock is a word. -/
  ticks : σ.w.ticks < 2 ^ 32
  /-- Whoever has time left sleeps. -/
  sleeps : ∀ i n, σ.nap i = some n → n.passed < n.asked → σ.Sleeps i n

/-! ## Ticks -/

/-- What the tick does to a task. -/
def tickTask (now : ℕ) (t : Task) : Task :=
  if t.state = .blocked ∧ t.sleepUntil ≠ 0 ∧ t.sleepUntil ≤ now then
    { t with sleepUntil := 0, state := .ready }
  else if t.state = .blocked ∧ t.sigPending ≠ 0 ∧ !t.waiting then { t with state := .ready }
  else t

theorem tickSlot_tasks (now : ℕ) (k : Kernel H) (j : Fin kMaxTask) :
    (tickSlot now k j).tasks = Function.update k.tasks j (tickTask now (k.tasks j)) := by
  rw [tickSlot, tickTask]
  split
  · next h =>
    have hset : (k.setTask j { k.tasks j with sleepUntil := 0 }).tasks j
        = { k.tasks j with sleepUntil := 0 } := by rw [setTask_tasks, Function.update_self]
    rw [Kernel.unblock, hset, if_pos h.1, setTask_tasks, setTask_tasks, Function.update_idem]
  · split
    · next h => rw [Kernel.unblock, if_pos h.1, setTask_tasks]
    · exact (Function.update_eq_self j k.tasks).symm

/-- The loop of `on_tick` does it to every task. -/
theorem foldl_tickSlot (now : ℕ) (k : Kernel H) {l : List (Fin kMaxTask)} (hl : l.Nodup)
    (i : Fin kMaxTask) : (l.foldl (tickSlot now) k).tasks i =
      if i ∈ l then tickTask now (k.tasks i) else k.tasks i := by
  induction l generalizing k with
  | nil => exact (if_neg List.not_mem_nil).symm
  | cons j l ih =>
    obtain ⟨hj, hl⟩ := List.nodup_cons.mp hl
    rw [List.foldl_cons, ih _ hl, tickSlot_tasks]
    by_cases hi : i = j
    · subst hi
      rw [if_neg hj, if_pos List.mem_cons_self, Function.update_self]
    · simp only [List.mem_cons, hi, false_or, Function.update_of_ne, ne_eq, not_false_eq_true]

theorem ticked_tasks (w : Machine H) (i : Fin kMaxTask) :
    (ticked w).k.tasks i = tickTask ((w.ticks + 1) % 2 ^ 32) (w.k.tasks i) := by
  have he : (ticked w).k
      = (List.finRange kMaxTask).foldl (tickSlot ((w.ticks + 1) % 2 ^ 32)) w.k := by rw [ticked]
  rw [he, foldl_tickSlot _ _ (List.nodup_finRange kMaxTask), if_pos (List.mem_finRange i)]

theorem tickTask_fields (now : ℕ) (t : Task) : (tickTask now t).waiting = t.waiting ∧
    (tickTask now t).inSyscall = t.inSyscall ∧ (tickTask now t).sigPending = t.sigPending := by
  rw [tickTask]
  split
  · exact ⟨rfl, rfl, rfl⟩
  · split
    · exact ⟨rfl, rfl, rfl⟩
    · exact ⟨rfl, rfl, rfl⟩

/-- A task whose deadline has not come, and that has no signal, stays as it is. -/
theorem tickTask_spared {now : ℕ} {t : Task}
    (h : t.Quiet → ¬(t.sleepUntil ≠ 0 ∧ t.sleepUntil ≤ now) ∨ t.state ≠ .blocked) :
    t.Spared (tickTask now t) := by
  obtain ⟨hw, hi, hp⟩ := tickTask_fields now t
  refine ⟨hw, hi, fun hs => hp.symm ▸ hs, fun hq => ?_⟩
  have hpend : t.sigPending = 0 := hp ▸ hq.1
  -- the second branch is for tasks that have a signal
  have hsig : ¬(t.state = .blocked ∧ t.sigPending ≠ 0 ∧ !t.waiting) := fun h => h.2.1 hpend
  rw [tickTask] at hq ⊢
  split
  · next hdue =>
    have hquiet : t.Quiet := ⟨hpend, Or.inr (Or.inr hdue.1)⟩
    rcases h hquiet with h | h
    · exact absurd hdue.2 h
    · exact absurd hdue.1 h
  · next hdue =>
    rw [if_neg hdue, if_neg hsig] at hq
    exact ⟨hq, rfl, Iff.rfl⟩

theorem ticked_devices (w : Machine H) : (ticked w).kbdWait = w.kbdWait ∧
    (ticked w).pending = w.pending ∧ (ticked w).ticks = (w.ticks + 1) % 2 ^ 32 := by
  rw [ticked]
  exact ⟨rfl, rfl, rfl⟩

theorem ticked_pipes (w : Machine H) : (ticked w).k.pipes = w.k.pipes := by
  have hone : ∀ (now : ℕ) (k : Kernel H) j, (tickSlot now k j).pipes = k.pipes := by
    intro now k j
    rw [tickSlot]
    split
    · exact elim_unblock_pipes _ (some j)
    · split
      · exact elim_unblock_pipes k (some j)
      · rfl
  have hall : ∀ (now : ℕ) (l : List (Fin kMaxTask)) (k : Kernel H),
      (l.foldl (tickSlot now) k).pipes = k.pipes := by
    intro now l
    induction l with
    | nil => exact fun _ => rfl
    | cons j l ih => exact fun k => (ih _).trans (hone now k j)
  rw [ticked]
  exact hall _ _ _

theorem onTick_rest (w : Machine H) (keys : List UInt8) (serial : Bool) :
    Calm (ticked w).k (onTick w keys serial).k ∧
      (onTick w keys serial).ticks = (w.ticks + 1) % 2 ^ 32 ∧
      (onTick w keys serial).pending = w.pending := by
  obtain ⟨-, hpend, hticks⟩ := ticked_devices w
  rw [← hpend, ← hticks, onTick]
  generalize ticked w = v
  obtain ⟨hc, hp⟩ := Machine.calm_ttyDrain v keys
  have ht : (v.ttyDrain keys).ticks = v.ticks := by
    rw [Machine.ttyDrain]
    split
    · rfl
    · rfl
  generalize v.ttyDrain keys = u at hc hp ht ⊢
  split
  · exact ⟨hc.trans (wakes_kbdWake _ _).calm, ht, hp⟩
  · exact ⟨hc, ht, hp⟩

/-- The second half of `on_tick` leaves alone whom no list has. -/
theorem leaves_onTick (w : Machine H) (keys : List UInt8) (serial : Bool) (hi : i ∉ w.kbdWait)
    (hp : ∀ a d, (w.k.pipes a).place d ≠ some i) :
    Leaves ((ticked w).k.tasks i) i (onTick w keys serial).k := by
  have h₀ : Leaves ((ticked w).k.tasks i) i (ticked w).k :=
    ⟨.refl _, fun a d => by rw [ticked_pipes]; exact hp a d⟩
  rw [← (ticked_devices w).1] at hi
  rw [onTick]
  generalize ticked w = v at hi h₀ ⊢
  have h₁ : Leaves _ i (v.ttyDrain keys).k := h₀.ttyDrain hi
  have hkbd : i ∉ (v.ttyDrain keys).kbdWait := by
    rw [Machine.ttyDrain]
    split
    · exact hi
    · exact List.not_mem_nil
  generalize v.ttyDrain keys = u at h₁ hkbd ⊢
  split
  · exact h₁.kbdWake hkbd
  · exact h₁

/-- **`on_tick`**, before the deadline. -/
theorem Sleeps.tick (h : σ.Sleeps i n) (hn : n.passed + 1 < n.asked) (hi : i ∉ σ.w.kbdWait)
    (hp : ∀ a d, (σ.w.k.pipes a).place d ≠ some i) (keys : List UInt8) (serial : Bool)
    (nap : Fin kMaxTask → Option Nap) :
    Sleeps ⟨onTick σ.w keys serial, nap⟩ i { n with passed := n.passed + 1 } := by
  have hl := leaves_onTick σ.w keys serial hi hp
  obtain ⟨-, hticks, hpend⟩ := onTick_rest σ.w keys serial
  have hclock : (σ.w.ticks + 1) % 2 ^ 32 = (n.start + (n.passed + 1)) % 2 ^ 32 := by
    rw [h.clock, Nat.mod_add_mod, Nat.add_assoc]
  obtain ⟨hpos, hdue⟩ := h.onTime.met_iff h.asked (c := n.passed) (by omega)
  have hspared : (σ.w.k.tasks i).Spared ((ticked σ.w).k.tasks i) := by
    rw [ticked_tasks]
    refine tickTask_spared fun hq => Or.inl fun hd => ?_
    rw [(h.asleep hq).2, hclock, ← Nat.add_assoc] at hd
    have := hdue.mp hd.2
    omega
  exact h.spared (hspared.trans hl.spared) (hticks.trans hclock) fun hi => Or.inl (hpend ▸ hi)

/-- **`on_tick`**, when the deadline has come. -/
theorem Sleeps.due (h : σ.Sleeps i n) (hn : n.passed + 1 = n.asked) (hi : i ∉ σ.w.kbdWait)
    (hp : ∀ a d, (σ.w.k.pipes a).place d ≠ some i) (keys : List UInt8) (serial : Bool)
    (hq : ((onTick σ.w keys serial).k.tasks i).Quiet) :
    ((onTick σ.w keys serial).k.tasks i).state = .ready := by
  have hl := leaves_onTick σ.w keys serial hi hp
  have hcalm := (onTick_rest σ.w keys serial).1
  obtain ⟨hq', -, hb⟩ := hl.spared.quiet hq
  obtain ⟨hpos, hdue⟩ := h.onTime.met_iff h.asked (c := n.passed) (by omega)
  have hready : ((ticked σ.w).k.tasks i).state = .ready := by
    rw [ticked_tasks] at hq' ⊢
    have hpend : (σ.w.k.tasks i).sigPending = 0 :=
      (tickTask_fields _ (σ.w.k.tasks i)).2.2 ▸ hq'.1
    rw [tickTask] at hq' ⊢
    split
    · rfl
    · next hnot =>
      rw [if_neg hnot, if_neg fun hs => hs.2.1 hpend] at hq'
      obtain ⟨hblk, hu⟩ := h.asleep hq'
      refine absurd ⟨hblk, ?_, ?_⟩ hnot
      · rw [hu]
        exact hpos
      · rw [hu, h.clock, Nat.mod_add_mod]
        exact hdue.mpr hn
  rcases hq.2 with hs | hs | hs
  · exact hs
  · have := hcalm.running i hs
    rw [hready] at this
    exact absurd this nofun
  · have := hb.mp hs
    rw [hready] at this
    exact absurd this nofun

/-! ## The rest of the kernel -/

section

variable [PageAlloc H]

theorem step_ticks {op : Op H} {v : Machine H} (hst : v.step op = some w)
    (hop : ∀ keys serial, op ≠ .tick keys serial) : w.ticks = v.ticks := by
  cases op with
  | tick keys serial => exact absurd rfl (hop keys serial)
  | reap =>
    obtain ⟨k', -, rfl⟩ := Option.map_eq_some_iff.mp hst
    rfl
  | preempt r =>
    obtain ⟨x, -, rfl⟩ := Option.map_eq_some_iff.mp hst
    rfl
  | switch =>
    rw [Machine.step] at hst
    split at hst
    · obtain rfl := Option.some.inj hst
      rfl
    · obtain rfl := Option.some.inj hst
      rfl
  | drain keys =>
    obtain rfl := Option.some.inj hst
    rw [Machine.ttyDrain]
    split
    · rfl
    · rfl
  | _ =>
    obtain rfl := Option.some.inj hst
    rfl

/-- A new process gets a slot of its own. -/
theorem spared_create {k : Kernel H} (hl : Leaves (k.tasks i) i k)
    (hslot : ∀ {slot}, k.freeSlot = some slot → slot ≠ i)
    (name : List UInt8) : (k.tasks i).Spared ((k.create name).2.tasks i) := by
  rcases create_spec k name with he | ⟨slot, t, m, pipes, hfree, he, hp, -⟩
  · rw [he]
    exact .refl _
  · rw [he]
    exact ((hl.setMmu m).setTask_ne t (hslot hfree)).spared

theorem spared_forkUser {k : Kernel H} (hl : Leaves (k.tasks i) i k)
    (hslot : ∀ {slot}, k.freeSlot = some slot → slot ≠ i) (frame : Registers) :
    (k.tasks i).Spared ((k.forkUser frame).2.tasks i) := by
  rcases forkUser_table k frame with he | ⟨slot, t, m, pipes, hfree, he, hp, -⟩
  · rw [he]
    exact .refl _
  · have hpurge : Leaves (k.tasks i) i (k.purgeNotes (slot + 1)) :=
      ⟨.of_same rfl rfl rfl rfl rfl, hl.place⟩
    rw [he]
    exact ((hpurge.setMmu m).setTask_ne t (hslot hfree)).spared

omit [PageAlloc H] in
theorem spared_block {k : Kernel H} (hl : Leaves (k.tasks i) i k) (hc : k.current ≠ i) :
    (k.tasks i).Spared (k.block.2.tasks i) := by
  rw [Kernel.block]
  split
  · exact .refl _
  · split
    · exact (hl.setTask_ne _ hc).spared
    · exact (hl.setTask_ne _ hc).spared

omit [PageAlloc H] in
theorem spared_collect {k : Kernel H} (hl : Leaves (k.tasks i) i k) (hc : k.current ≠ i) (pid : ℕ) :
    (k.tasks i).Spared ((k.collect pid).tasks i) := by
  rcases collect_spec k pid with he | ⟨t, he, -⟩
  · rw [he]
    exact .refl _
  · rw [he]
    exact (hl.setTask_ne t hc).spared

/-- **What has nothing to do with the clock** leaves alone whom no list has. -/
theorem leaves_plain {op : Op H} (hi : σ.nap i ≠ none) (ha : σ.Allowed (.plain op))
    (hs : σ.Unhurried (.plain op)) (hw : (σ.w.k.tasks i).waiting = false)
    (hin : (σ.w.k.tasks i).inSyscall = true) (hfresh : σ.freshNap op i ≠ none)
    (hch : σ.w.pending = some i → (σ.w.k.tasks i).sigPending ≠ 0) (hst : σ.w.step op = some w) :
    (σ.w.k.tasks i).Spared (w.k.tasks i) ∧
      (w.pending = some i → σ.w.pending = some i ∨ (σ.w.k.tasks i).state = .ready) := by
  obtain ⟨hall, hop⟩ := hs
  obtain ⟨hkbd, hplace, hzero⟩ := hall i hi
  obtain ⟨ha, hout⟩ := ha
  have hl : Leaves (σ.w.k.tasks i) i σ.w.k := ⟨.refl _, hplace⟩
  have hcur : σ.nap σ.current = none → σ.w.k.current ≠ i := fun hn hc => hi (hc ▸ hn)
  have hslot : (∃ slot, σ.w.k.freeSlot = some slot ∧ slot = i) →
    σ.freshNap op ≠ σ.w.k.freeSlot.elim σ.nap fun slot =>
      Function.update σ.nap slot none := by
    rintro ⟨slot, hslot, rfl⟩ hf
    rw [hf, hslot, Option.elim_some, Function.update_self] at hfresh
    exact hfresh rfl
  cases op with
  | create name =>
    obtain rfl := Option.some.inj hst
    exact ⟨spared_create hl (fun hfree he => hslot ⟨_, hfree, he⟩ rfl) name, Or.inl⟩
  | fork frame =>
    obtain rfl := Option.some.inj hst
    exact ⟨spared_forkUser hl (fun hfree he => hslot ⟨_, hfree, he⟩ rfl) frame, Or.inl⟩
  | arm j =>
    obtain rfl := Option.some.inj hst
    have hset : Leaves (σ.w.k.tasks i) i (σ.w.k.setTask j { σ.w.k.tasks j with armed := true }) :=
      hl.setTask (.of_same rfl rfl rfl rfl rfl)
    exact ⟨hset.spared, Or.inl⟩
  | destroy j =>
    obtain rfl := Option.some.inj hst
    exact ⟨(hl.destroy j).spared, Or.inl⟩
  | becomeFirst =>
    obtain rfl := Option.some.inj hst
    exact ⟨(hl.setTask_ne _ (ha.2 ▸ hcur hout)).spared, Or.inl⟩
  | block =>
    obtain rfl := Option.some.inj hst
    exact ⟨spared_block hl (hcur hout), Or.inl⟩
  | unblock j =>
    obtain rfl := Option.some.inj hst
    refine ⟨(hl.unblock ?_).spared, Or.inl⟩
    rintro rfl
    exact hi hop
  | resumeAfterExec =>
    obtain rfl := Option.some.inj hst
    exact ⟨(hl.setTask_ne _ (hcur hout)).spared, Or.inl⟩
  | reap =>
    obtain ⟨k', hk', rfl⟩ := Option.map_eq_some_iff.mp hst
    exact ⟨(hl.reap hw hk').spared, Or.inl⟩
  | pick =>
    obtain rfl := Option.some.inj hst
    exact ⟨.refl _, fun hp => Or.inr (pick_ready hp)⟩
  | switch =>
    rw [Machine.step] at hst
    cases hp : σ.w.pending with
    | none =>
      rw [hp] at hst
      obtain rfl := Option.some.inj hst
      exact ⟨.refl _, fun h => Or.inl (hp ▸ h)⟩
    | some dst =>
      rw [hp] at hst
      obtain rfl := Option.some.inj hst
      refine ⟨(hl.switchTo hin fun hd => Or.inl (hch (hd ▸ hp))).spared, fun h => ?_⟩
      exact absurd h.symm (Option.some_ne_none i)
  | kill pid sig =>
    obtain rfl := Option.some.inj hst
    exact ⟨(hl.kill hw (hcur hout) pid (Or.inr hzero)).spared, Or.inl⟩
  | fault intNo =>
    obtain rfl := Option.some.inj hst
    exact ⟨(hl.killUserFault hw (hcur hout) intNo).spared, Or.inl⟩
  | exit code =>
    obtain rfl := Option.some.inj hst
    exact ⟨(hl.exit hw (hcur hout) code).spared, Or.inl⟩
  | tick keys serial => exact absurd hout id
  | preempt r =>
    obtain ⟨⟨b, k'⟩, hpre, rfl⟩ := Option.map_eq_some_iff.mp hst
    refine ⟨(hl.preempt hw hin (fun hc => hout ?_) hpre).spared, fun hp => Or.inl ?_⟩
    · rw [current, hc]
      exact hi
    · dsimp only at hp
      split at hp
      · exact absurd hp.symm (Option.some_ne_none i)
      · exact hp
  | key =>
    obtain rfl := Option.some.inj hst
    exact ⟨(hl.kbdWake hkbd).spared, Or.inl⟩
  | drain keys =>
    obtain rfl := Option.some.inj hst
    refine ⟨(hl.ttyDrain hkbd).spared, fun hp => Or.inl ?_⟩
    rwa [(Machine.calm_ttyDrain σ.w keys).2] at hp
  | collect pid =>
    obtain rfl := Option.some.inj hst
    exact ⟨spared_collect hl (hcur hout) pid, Or.inl⟩
  | work t =>
    obtain rfl := Option.some.inj hst
    exact ⟨(hl.setTask_ne t (hcur hout)).spared, Or.inl⟩
  | outside mmu pipes kbdWait owner sigs =>
    obtain rfl := Option.some.inj hst
    exact ⟨.refl _, Or.inl⟩

end

/-- A call parks, if the task was not told to go on. -/
theorem sleepTicks_parks {m : UInt32} (ha : σ.Allowed (.sleep m)) (hm : m ≠ 0)
    (hs : σ.task.sigPending = 0) (hw : σ.task.wakePending = false) : σ.sleepTicks m = (none,
      ⟨σ.w.setKernel (σ.w.k.setTask σ.current { σ.task with
          sleepUntil := (σ.w.ticks + m.toNat) % 2 ^ 32, state := .blocked, inSyscall := true }),
        Function.update σ.nap σ.current (some ⟨m.toNat, σ.w.ticks, 0⟩)⟩) := by
  obtain ⟨-, -, hb, -⟩ := ha
  rw [sleepTicks, if_neg hm, if_neg (not_not.mpr hs)]
  set t : Task := { σ.task with sleepUntil := (σ.w.ticks + m.toNat) % 2 ^ 32 } with ht
  have hself : (σ.w.k.setTask σ.current t).tasks (σ.w.k.setTask σ.current t).current = t :=
    Function.update_self _ _ _
  have hw' : ¬t.wakePending = true := by
    rw [ht, hw]
    exact Bool.false_ne_true
  have hblock : (σ.w.k.setTask σ.current t).block = (true, (σ.w.k.setTask σ.current t).setTask
      σ.current { t with state := .blocked, inSyscall := true }) := by
    rw [Kernel.block, hself, if_neg hb, if_neg hw']
    rfl
  dsimp only
  rw [hblock, setTask_setTask]
  rfl

theorem Asleep.sleep {m : UInt32} (h : σ.Asleep) (ha : σ.Allowed (.sleep m))
    (hs : σ.Unhurried (.sleep m)) : (σ.sleepTicks m).2.Asleep := by
  by_cases hm : m = 0
  · rw [sleepTicks, if_pos hm]
    exact h
  · by_cases hsig : σ.task.sigPending = 0
    · obtain ⟨hw, ht⟩ := hs.2 hm hsig
      rw [sleepTicks_parks ha hm hsig hw]
      refine ⟨h.ticks, fun i n hi hn => ?_⟩
      dsimp only at hi hn
      rw [Function.update_apply] at hi
      split at hi
      · next hc =>
        subst hc
        obtain rfl := Option.some.inj hi
        set t : Task := { σ.task with
          sleepUntil := (σ.w.ticks + m.toNat) % 2 ^ 32, state := .blocked,
          inSyscall := true } with ht'
        have hself : (σ.w.k.setTask σ.current t).tasks σ.current = t := Function.update_self _ _ _
        refine ⟨m.toNat_lt, ht, (Nat.mod_eq_of_lt h.ticks).symm, ?_, ?_, fun hp => ?_, fun _ => ?_⟩
        · rw [Machine.setKernel_k, hself]
          exact ha.2.2.2
        · rw [Machine.setKernel_k, hself]
        · have hp' : σ.w.pending = some σ.current := hp
          rw [ha.2.1] at hp'
          exact absurd hp' nofun
        · rw [Machine.setKernel_k, hself]
          exact ⟨rfl, rfl⟩
      · next hc =>
        have hsp := h.sleeps i n hi hn
        refine hsp.spared ?_ hsp.clock Or.inl
        rw [Machine.setKernel_k, setTask_tasks, Function.update_of_ne hc]
        exact .refl _
    · rw [sleepTicks, if_neg hm, if_pos hsig]
      exact h

/-- A task that leaves its call changes its own entry. -/
theorem Asleep.leave (h : σ.Asleep) (t t' : Task) :
    Asleep ⟨σ.w.setKernel ((σ.w.k.setTask σ.current t).setTask σ.current t'),
      Function.update σ.nap σ.current none⟩ := by
  refine ⟨h.ticks, fun i n hi hn => ?_⟩
  dsimp only at hi
  rw [Function.update_apply] at hi
  split at hi
  · exact absurd hi nofun
  · next hne =>
    have hsp := h.sleeps i n hi hn
    refine hsp.spared ?_ hsp.clock Or.inl
    rw [Machine.setKernel_k, setTask_tasks, Function.update_of_ne hne, setTask_tasks,
      Function.update_of_ne hne]
    exact .refl _

theorem freshNap_eq {op : Op H} (hi : σ.freshNap op i ≠ none) : σ.freshNap op i = σ.nap i := by
  have hslot : ∀ o : Option (Fin kMaxTask),
      (o.elim σ.nap fun slot => Function.update σ.nap slot none) i ≠ none →
      (o.elim σ.nap fun slot => Function.update σ.nap slot none) i = σ.nap i := by
    intro o ho
    cases o with
    | none => rfl
    | some slot =>
      rw [Option.elim_some, Function.update_apply] at ho ⊢
      split at ho
      · exact absurd rfl ho
      · next hne => rw [if_neg hne]
  cases op with
  | create name => exact hslot _ hi
  | fork frame => exact hslot _ hi
  | _ => rfl

/-! ## Runs -/

section

variable [PageAlloc H] {op : SleepOp H} {r : Option ℤ}

/-- **One operation.** -/
theorem Asleep.step (h : σ.Asleep) (ha : σ.Allowed op) (hs : σ.Unhurried op)
    (hst : σ.step op = some (r, σ')) : σ'.Asleep := by
  cases op with
  | sleep m =>
    obtain ⟨-, he⟩ := Prod.ext_iff.mp (Option.some.inj hst)
    dsimp only at he
    exact he ▸ h.sleep ha hs
  | resume =>
    obtain ⟨-, rfl⟩ := Prod.mk.inj (Option.some.inj hst)
    exact h.leave _ _
  | tick keys serial =>
    obtain ⟨-, rfl⟩ := Prod.mk.inj (Option.some.inj hst)
    refine ⟨?_, fun i n' hi hn => ?_⟩
    · rw [(onTick_rest σ.w keys serial).2.1]
      exact Nat.mod_lt _ (by norm_num)
    · obtain ⟨n, hi', rfl⟩ := Option.map_eq_some_iff.mp hi
      dsimp only at hn
      obtain ⟨hkbd, hplace, -⟩ := hs.1 i (by rw [hi']; exact nofun)
      exact (h.sleeps i n hi' (by omega)).tick hn hkbd hplace keys serial _
  | plain op =>
    obtain ⟨w, hw, he⟩ := Option.map_eq_some_iff.mp hst
    obtain ⟨-, rfl⟩ := Prod.mk.inj he
    refine ⟨?_, fun i n hi hn => ?_⟩
    · rw [step_ticks hw fun keys serial hop => by rw [hop] at ha; exact ha.2]
      exact h.ticks
    · dsimp only at hi
      have hfresh : σ.freshNap op i ≠ none := by rw [hi]; exact nofun
      rw [freshNap_eq hfresh] at hi
      have hsp := h.sleeps i n hi hn
      obtain ⟨hspared, hpend⟩ := leaves_plain (by rw [hi]; exact nofun) ha hs hsp.waiting
        hsp.inSyscall hfresh hsp.chosen hw
      have hticks := step_ticks hw fun keys serial hop => by rw [hop] at ha; exact ha.2
      refine hsp.spared hspared (hticks.trans hsp.clock) fun hp => ?_
      rcases hpend hp with hp | hr
      · exact Or.inl hp
      · -- who is ready and has not slept long enough has a signal
        refine Or.inr (hspared.signalled fun hz => ?_)
        have hb := (hsp.asleep ⟨hz, Or.inl hr⟩).1
        rw [hr] at hb
        exact absurd hb nofun

/-- What a process that sleeps relies on. A call parks; until the time is over the task is blocked;
with the last tick it is ready; and when it returns the time is over. All of this is for tasks that
get no signal. -/
structure Punctual (σ : SleepMachine H) : Prop where
  /-- A call parks. -/
  parks : ∀ m r σ', σ.Allowed (.sleep m) → σ.Unhurried (.sleep m) →
    σ.step (.sleep m) = some (r, σ') → m ≠ 0 → σ.task.sigPending = 0 →
    r = none ∧ σ'.nap σ.current = some ⟨m.toNat, σ.w.ticks, 0⟩
  /-- Until the time is over the task is blocked. -/
  sleeps : ∀ i n, σ.nap i = some n → n.passed < n.asked → (σ.w.k.tasks i).Quiet →
    (σ.w.k.tasks i).state = .blocked
  /-- With the last tick it is ready. -/
  wakes : ∀ keys serial r σ', σ.Unhurried (.tick keys serial) →
    σ.step (.tick keys serial) = some (r, σ') → ∀ i n, σ.nap i = some n → n.passed + 1 = n.asked →
    (σ'.w.k.tasks i).Quiet → (σ'.w.k.tasks i).state = .ready
  /-- When the call returns the time is over. -/
  returns : ∀ r σ', σ.Allowed .resume → σ.step .resume = some (r, σ') → σ.task.Quiet →
    r = some 0 ∧ ∃ n, σ.nap σ.current = some n ∧ n.asked ≤ n.passed

/-- **A task sleeps as long as it asked to**, in every run in which nothing but the clock and
signals wakes it. -/
theorem sleeps_as_long_as_asked (h : SleepReaches Unhurried σ) : σ.Punctual := by
  have hall : σ.Asleep := by
    induction h with
    | start w ht hp => exact ⟨ht, fun i n hi => absurd hi nofun⟩
    | step hr ha hs hst ih => exact ih.step ha hs hst
  refine ⟨fun m r σ' ha hs hst hm hsig => ?_,
    fun i n hi hn hq => ((hall.sleeps i n hi hn).asleep hq).1,
    fun keys serial r σ' hs hst i n hi hn hq => ?_, fun r σ' ha hst hq => ?_⟩
  · have he := Option.some.inj hst
    rw [sleepTicks_parks ha hm hsig (hs.2 hm hsig).1] at he
    obtain ⟨rfl, rfl⟩ := Prod.mk.inj he
    exact ⟨rfl, Function.update_self _ _ _⟩
  · obtain ⟨-, rfl⟩ := Prod.mk.inj (Option.some.inj hst)
    obtain ⟨hkbd, hplace, -⟩ := hs.1 i (by rw [hi]; exact nofun)
    exact (hall.sleeps i n hi (by omega)).due hn hkbd hplace keys serial hq
  · obtain ⟨rfl, -⟩ := Prod.mk.inj (Option.some.inj hst)
    obtain ⟨hnap, -, hb, -⟩ := ha
    obtain ⟨n, hn⟩ := Option.ne_none_iff_exists'.mp hnap
    refine ⟨?_, n, hn, ?_⟩
    · have hself : ((σ.w.k.setTask σ.current { σ.task with wakePending := false }).tasks
          σ.current).sigPending = 0 := by
        rw [setTask_tasks, Function.update_self]
        exact hq.1
      refine congrArg some (if_neg (not_not.mpr ?_))
      exact hself
    · by_contra hlt
      exact hb ((hall.sleeps _ n hn (Nat.not_le.mp hlt)).asleep hq).1

end

/-- **A deadline that is not met when it should be** is none, so that no tick wakes the task, or it
has come at the next tick although there is more than one to wait for. -/
theorem tickTask_of_not_onTime {t : Task} {now m : ℕ} (hnow : now < 2 ^ 32) (hm : m < 2 ^ 32)
    (hpos : 0 < m) (h : ¬OnTime now m) (hb : t.state = .blocked) (hs : t.sigPending = 0)
    (ht : t.sleepUntil = (now + m) % 2 ^ 32) :
    (∀ c, tickTask c t = t) ∨ 1 < m ∧ (tickTask ((now + 1) % 2 ^ 32) t).state = .ready := by
  rw [OnTime, not_or, not_and_or] at h
  obtain ⟨h, h'⟩ := h
  have hlate : (now + m) % 2 ^ 32 = now + m - 2 ^ 32 := by
    rw [show now + m = now + m - 2 ^ 32 + 2 ^ 32 by omega, Nat.add_mod_right,
      Nat.mod_eq_of_lt (by omega)]
    omega
  rw [hlate] at ht
  by_cases hz : now + m - 2 ^ 32 = 0
  · left
    intro c
    rw [tickTask, if_neg fun hc => hc.2.1 (ht.trans hz), if_neg fun hc => hc.2.1 hs]
  · right
    refine ⟨by omega, ?_⟩
    have hdue : t.sleepUntil ≤ (now + 1) % 2 ^ 32 := by
      rw [ht]
      omega
    rw [tickTask, if_pos ⟨hb, ht.symm ▸ hz, hdue⟩]

/-! ## A task that was told to go on before -/

theorem SleepReaches.did [PageAlloc H] {ok : SleepMachine H → SleepOp H → Prop} {r : Option ℤ}
    (hr : SleepReaches ok σ) (op : SleepOp H) (ha : σ.Allowed op) (hs : ok σ op)
    (hst : σ.step op = some (r, σ')) : SleepReaches ok σ' := hr.step ha hs hst

/-- The first process, which has been waiting for a key: there was one, and it did not block. -/
def told : SleepMachine Pages.Bump where
  w := (Machine.startup.setKernel (Machine.startup.k.kbdWake [0]))
  nap _ := none

/-- It asks to sleep for a hundred ticks. -/
def napping : SleepMachine Pages.Bump :=
  (sleepTicks ⟨Machine.startup, fun _ => none⟩ 100).2

theorem sleeps_as_long_as_asked_napping :
    napping.nap 0 = some ⟨100, 0, 0⟩ ∧ (napping.w.k.tasks 0).state = .blocked := by
  have h₀ : SleepReaches Unhurried (⟨Machine.startup, fun _ => none⟩ : SleepMachine Pages.Bump) :=
    .start Machine.startup (by decide +kernel) rfl
  have h₁ : SleepReaches Unhurried napping :=
    h₀.did (.sleep 100) ⟨rfl, rfl, by decide +kernel, rfl⟩
      ⟨fun i hi => absurd rfl hi, fun _ _ => ⟨rfl, by decide +kernel⟩⟩ (r := none) (by
        rw [step]
        exact congrArg some (Prod.ext (by decide +kernel) rfl))
  have hn : napping.nap 0 = some ⟨100, 0, 0⟩ := rfl
  refine ⟨hn, (sleeps_as_long_as_asked h₁).sleeps 0 _ hn (by decide) ⟨rfl, Or.inr (Or.inr rfl)⟩⟩

/-- The process that was told to go on sleeps for a hundred ticks, and returns before the first. -/
theorem told_returns : SleepReaches (fun _ _ => True) told ∧ told.Allowed (.sleep 100) ∧
    told.task.Quiet ∧ (told.sleepTicks 100).1 = some 0 ∧
    (told.sleepTicks 100).2.w.ticks = told.w.ticks := by
  refine ⟨?_, ⟨rfl, rfl, by decide +kernel, by decide +kernel⟩, ⟨by decide +kernel, ?_⟩,
    by decide +kernel, by decide +kernel⟩
  · have h₀ : SleepReaches (fun _ _ => True)
        (⟨Machine.startup, fun _ => none⟩ : SleepMachine Pages.Bump) :=
      .start Machine.startup (by decide +kernel) rfl
    have h₁ := h₀.did (.plain (.outside Machine.startup.k.mmu Machine.startup.k.pipes [0] 0 true))
      ⟨rfl, rfl⟩ trivial (r := none) rfl
    exact h₁.did (.plain .key) ⟨trivial, trivial⟩ trivial (r := none) rfl
  · exact Or.inr (Or.inl (by decide +kernel))

end SleepMachine

end Aurisys
