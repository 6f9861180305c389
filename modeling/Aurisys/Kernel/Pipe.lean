import Aurisys.Kernel.PipeEnds
import Aurisys.Lib.Ring

/-!
# Reading and writing pipes

`pipe_rd` and `pipe_wr` move bytes through a circular buffer. A reader that finds nothing parks as
long as there is a writer, and a writer parks in the middle of its bytes when the buffer is full, as
long as there is a reader; others read and write meanwhile. Between two parks no other process runs,
so a step here runs a call until it parks or returns.

## The byte stream

What was stored in a pipe, in order, is what was returned to readers, in order, and then what is in
the buffer. `History` keeps the two sequences; the code has no such thing.

## Scope

Which descriptor a call came through is left out: any process may use any pipe. A call that has
parked goes on with interrupts on, so that a tick can come between two of its stores. Such a tick is
taken to come in front of the step or behind it: a process that is killed between two steps does not
go on, but none is stopped in the middle of moving a byte.

## Main definitions

* `PipeMachine`, `pipeRd`, `pipeWr`, `PipeOp`
* `History`, `PipeReaches`

## Main results

* `pipe_stream`
-/

namespace Aurisys

open Paging

def kPipeBytes : ℕ := 4096

/-- Where a task is in the code of pipes. -/
inductive Pc where
  | out
  /-- In `block_on` in `pipe_rd`. -/
  | rd (a len : ℕ)
  /-- In `block_on` in `pipe_wr`, with the bytes that are left and how many have been put. -/
  | wr (a : ℕ) (rest : List UInt8) (put : ℕ)
deriving DecidableEq

/-- What a call has come to. -/
inductive Outcome where
  | parked
  | done (r : ℤ)
deriving DecidableEq

namespace Kernel

variable {H : Type}

def setPipe (k : Kernel H) (a : ℕ) (p : Pipe) : Kernel H :=
  k.setPipes (Function.update k.pipes a p)

def setRdWait (o : Option (Fin kMaxTask)) (p : Pipe) : Pipe := { p with rdWait := o }

def setWrWait (o : Option (Fin kMaxTask)) (p : Pipe) : Pipe := { p with wrWait := o }

/-- `block_on` with one of the two slots of a pipe: whether the task parks. -/
def blockOn (k : Kernel H) (a : ℕ) (slot : Option (Fin kMaxTask) → Pipe → Pipe) :
    Bool × Kernel H :=
  let (parked, k) := (k.setPipe a (slot (some k.current) (k.pipes a))).block
  if parked then (true, k) else (false, k.setPipe a (slot none (k.pipes a)))

/-- The loop around `block_on`. A wakeup from before lets it return at once, and then it comes again
and parks; `none` would be a third time. -/
def parkOn (k : Kernel H) (a : ℕ) (slot : Option (Fin kMaxTask) → Pipe → Pipe) :
    Option (Kernel H) :=
  match k.blockOn a slot with
  | (true, k) => some k
  | (false, k) =>
    match k.blockOn a slot with
    | (true, k) => some k
    | (false, _) => none

@[simp] theorem setPipe_tasks (k : Kernel H) (a : ℕ) (p : Pipe) : (k.setPipe a p).tasks = k.tasks :=
  rfl

@[simp] theorem setPipe_current (k : Kernel H) (a : ℕ) (p : Pipe) :
    (k.setPipe a p).current = k.current := rfl

theorem setPipe_self (k : Kernel H) (a : ℕ) (p : Pipe) : (k.setPipe a p).pipes a = p :=
  Function.update_self _ _ _

theorem setPipe_setPipe (k : Kernel H) (a : ℕ) (p q : Pipe) :
    (k.setPipe a p).setPipe a q = k.setPipe a q := by
  simp only [setPipe, setPipes, Function.update_idem]

section

variable {k : Kernel H} {slot : Option (Fin kMaxTask) → Pipe → Pipe}

/-- A task that was not told to go on parks. -/
theorem blockOn_parks (a : ℕ) (hb : (k.tasks k.current).state ≠ .blocked)
    (hw : (k.tasks k.current).wakePending = false) :
    k.blockOn a slot = (true, (k.setPipe a (slot (some k.current) (k.pipes a))).setTask k.current
      { k.tasks k.current with state := .blocked, inSyscall := true, wakePending := false }) := by
  have hw' : ¬(k.tasks k.current).wakePending = true := by rw [hw]; exact Bool.false_ne_true
  rw [blockOn, block, setPipe_current, setPipe_tasks, if_neg hb, if_neg hw', ← hw]
  rfl

/-- A task that was told before comes back. -/
theorem blockOn_returns (a : ℕ) (hslot : ∀ o o' p, slot o (slot o' p) = slot o p)
    (hb : (k.tasks k.current).state ≠ .blocked) (hw : (k.tasks k.current).wakePending = true) :
    k.blockOn a slot = (false, (k.setTask k.current { k.tasks k.current with
      state := .running, inSyscall := false, wakePending := false }).setPipe a
        (slot none (k.pipes a))) := by
  rw [blockOn, block, setPipe_current, setPipe_tasks, if_neg hb, if_pos hw]
  dsimp only
  have hpipe : ((k.setPipe a (slot (some k.current) (k.pipes a))).setTask k.current
      { k.tasks k.current with state := .running, inSyscall := false, wakePending := false }).pipes
      a
      = slot (some k.current) (k.pipes a) := Function.update_self _ _ _
  rw [if_neg Bool.false_ne_true, hpipe, hslot]
  refine Prod.ext rfl ?_
  exact setPipe_setPipe (k.setTask k.current _) a _ _

/-- **The loop around `block_on`** ends: at its second turn at the latest the task parks. -/
theorem parkOn_eq (a : ℕ) (hslot : ∀ o o' p, slot o (slot o' p) = slot o p)
    (hb : (k.tasks k.current).state ≠ .blocked) :
    k.parkOn a slot = some ((k.setPipe a (slot (some k.current) (k.pipes a))).setTask k.current
      { k.tasks k.current with state := .blocked, inSyscall := true, wakePending := false }) := by
  rw [parkOn]
  cases hw : (k.tasks k.current).wakePending with
  | false => rw [blockOn_parks a hb hw]
  | true =>
    rw [blockOn_returns a hslot hb hw]
    set t : Task := { k.tasks k.current with
      state := .running, inSyscall := false, wakePending := false } with ht
    have htask : ((k.setTask k.current t).setPipe a (slot none (k.pipes a))).tasks k.current = t :=
      Function.update_self _ _ _
    have hpark : _ → _ → ((k.setTask k.current t).setPipe a (slot none (k.pipes a))).blockOn a slot
        = _ := blockOn_parks a
    rw [setPipe_current, setTask_current, htask, setPipe_self, hslot] at hpark
    dsimp only at hpark ⊢
    rw [hpark TaskState.noConfusion rfl]
    refine congrArg some ?_
    rw [setPipe_setPipe]
    exact setTask_setTask (k.setPipe a _) k.current _ _

end

/-- A reader that waits for data is told. -/
def wakeRd (k : Kernel H) (a : ℕ) : Kernel H :=
  match (k.pipes a).rdWait with
  | none => k
  | some j => (k.unblock j).setPipe a (setRdWait none (k.pipes a))

/-- A writer that waits for room is told. -/
def wakeWr (k : Kernel H) (a : ℕ) : Kernel H :=
  match (k.pipes a).wrWait with
  | none => k
  | some j => (k.unblock j).setPipe a (setWrWait none (k.pipes a))

theorem wakes_wakeRd (k : Kernel H) (a : ℕ) : Wakes k (k.wakeRd a) := by
  rw [wakeRd]
  split
  · exact .refl k
  · next j _ => exact (wakes_unblock k j).trans (.setPipes _ _)

/-- What `block` does last, and `block_on` after it. -/
def unpark (k : Kernel H) (a : ℕ) (slot : Option (Fin kMaxTask) → Pipe → Pipe) : Kernel H :=
  (k.setTask k.current { k.tasks k.current with wakePending := false }).setPipe a
    (slot none (k.pipes a))

end Kernel

/-- The machine, what is in the pipes, and which tasks are in a call on one. -/
structure PipeMachine (H : Type) where
  w : Machine H
  ring : ℕ → Ring UInt8
  pc : Fin kMaxTask → Pc

namespace PipeMachine

variable {H : Type}

def current (σ : PipeMachine H) : Fin kMaxTask := σ.w.k.current

def setKernel (σ : PipeMachine H) (k : Kernel H) : PipeMachine H := { σ with w := σ.w.setKernel k }

def setRing (σ : PipeMachine H) (a : ℕ) (r : Ring UInt8) : PipeMachine H :=
  { σ with ring := Function.update σ.ring a r }

def setPc (σ : PipeMachine H) (i : Fin kMaxTask) (c : Pc) : PipeMachine H :=
  { σ with pc := Function.update σ.pc i c }

/-- `pipe_rd`: what it comes to, and the bytes it returns. -/
def pipeRd (σ : PipeMachine H) (a len : ℕ) : Option (Outcome × List UInt8 × PipeMachine H) :=
  if (σ.ring a).n = 0 ∧ (σ.w.k.pipes a).writers ≠ 0 then
    (σ.w.k.parkOn a Kernel.setRdWait).map fun k =>
      (.parked, [], (σ.setKernel k).setPc σ.current (.rd a len))
  else if (σ.ring a).n = 0 then some (.done 0, [], σ.setPc σ.current .out)
  else
    let (got, r) := (σ.ring a).takeUpTo kPipeBytes len
    some (.done got.length, got,
      ((σ.setKernel (σ.w.k.wakeWr a)).setRing a r).setPc σ.current .out)

/-- `pipe_wr`, with `put` bytes behind it: what it comes to, and the bytes it stores. -/
def pipeWr (σ : PipeMachine H) (a : ℕ) : List UInt8 → ℕ →
    Option (Outcome × List UInt8 × PipeMachine H)
  | [], put => some (.done put, [], σ.setPc σ.current .out)
  | c :: rest, put =>
    if (σ.ring a).n = kPipeBytes ∧ (σ.w.k.pipes a).readers ≠ 0 then
      (σ.w.k.parkOn a Kernel.setWrWait).map fun k =>
        (.parked, [], (σ.setKernel k).setPc σ.current (.wr a (c :: rest) put))
    else if (σ.ring a).n = kPipeBytes then some (.done (-1), [], σ.setPc σ.current .out)
    else
      (pipeWr ((σ.setRing a ((σ.ring a).put kPipeBytes c)).setKernel (σ.w.k.wakeRd a)) a rest
        (put + 1)).map fun r => (r.1, c :: r.2.1, r.2.2)

/-- A task that parked has been switched to, and goes on. -/
def resume (σ : PipeMachine H) : Option (Outcome × List UInt8 × PipeMachine H) :=
  match σ.pc σ.current with
  | .out => none
  | .rd a len => (σ.setKernel (σ.w.k.unpark a Kernel.setRdWait)).pipeRd a len
  | .wr a rest put => (σ.setKernel (σ.w.k.unpark a Kernel.setWrWait)).pipeWr a rest put

end PipeMachine

/-- What can happen. -/
inductive PipeOp (H : Type) where
  | read (a len : ℕ)
  | write (a : ℕ) (s : List UInt8)
  | resume
  | pipe
  | dup2 (old nw : ℤ)
  | fdInstall (into : Fin kMaxTask) (childFd src : ℤ)
  | fdClose (fd : ℤ)
  /-- What has nothing to do with pipes. -/
  | plain (op : Op H)

/-- What went through each pipe since it was made. -/
structure History where
  stored : ℕ → List UInt8
  returned : ℕ → List UInt8

namespace History

@[simps] def store (h : History) (a : ℕ) (l : List UInt8) : History :=
  { h with stored := Function.update h.stored a (h.stored a ++ l) }

@[simps] def giveBack (h : History) (a : ℕ) (l : List UInt8) : History :=
  { h with returned := Function.update h.returned a (h.returned a ++ l) }

@[simps] def clear (h : History) (a : ℕ) : History where
  stored := Function.update h.stored a []
  returned := Function.update h.returned a []

end History

namespace PipeMachine

variable {H : Type}

/-- The task that runs is in none of the calls that park, and makes one. -/
def Acting (σ : PipeMachine H) : Prop :=
  σ.pc σ.current = .out ∧ σ.w.pending = none ∧ (σ.w.k.tasks σ.current).state ≠ .blocked

instance (σ : PipeMachine H) : Decidable σ.Acting :=
  inferInstanceAs (Decidable (_ ∧ _ ∧ _))

/-- When an operation can happen. Interrupts and the scheduler do not ask what the task that runs is
doing; a call is made when no other is. -/
def Allowed (σ : PipeMachine H) : PipeOp H → Prop
  | .read a _ | .write a _ => a ≠ 0 ∧ σ.Acting ∧ (σ.w.k.tasks σ.current).waiting = false ∧
      (σ.w.k.tasks σ.current).sleepUntil = 0
  | .resume => σ.pc σ.current ≠ .out ∧ σ.w.pending = none ∧
      (σ.w.k.tasks σ.current).state ≠ .blocked ∧ (σ.w.k.tasks σ.current).state ≠ .ready
  | .pipe | .dup2 .. | .fdInstall .. | .fdClose _ => σ.Acting
  | .plain op => σ.w.Allowed op ∧
      match op with
      | .tick .. | .preempt _ | .key | .switch | .reap | .pick => True
      | .outside _ pipes _ _ _ => pipes = σ.w.k.pipes
      | _ => σ.pc σ.current = .out

/-- A new process is in no call. -/
def freshPc (σ : PipeMachine H) : Op H → Fin kMaxTask → Pc
  | .fork _ | .create _ => σ.w.k.freeSlot.elim σ.pc fun slot => Function.update σ.pc slot .out
  | _ => σ.pc

/-- `pipe` clears the buffer it takes. -/
def makePipe (σ : PipeMachine H) (h : History) : PipeMachine H × History :=
  let σ' := σ.setKernel σ.w.k.pipe.2
  σ.w.k.freePipe.elim (σ', h) fun p =>
    (σ'.setRing (Kernel.pipeAddr p) (.empty 0), h.clear (Kernel.pipeAddr p))

variable [PageAlloc H]

/-- One operation; `none` is a panic, or a call that never ends. -/
def step (σ : PipeMachine H) (h : History) : PipeOp H → Option (PipeMachine H × History)
  | .read a len => (σ.pipeRd a len).map fun r => (r.2.2, h.giveBack a r.2.1)
  | .write a s => (σ.pipeWr a s 0).map fun r => (r.2.2, h.store a r.2.1)
  | .resume => σ.resume.map fun r =>
      (r.2.2, match σ.pc σ.current with
        | .out => h
        | .rd a _ => h.giveBack a r.2.1
        | .wr a _ _ => h.store a r.2.1)
  | .pipe => some (σ.makePipe h)
  | .dup2 old nw => some (σ.setKernel (σ.w.k.dup2 old nw).2, h)
  | .fdInstall into childFd src => some (σ.setKernel (σ.w.k.fdInstall into childFd src).2, h)
  | .fdClose fd => some (σ.setKernel (σ.w.k.closeFd fd), h)
  | .plain op => (σ.w.step op).map fun w => ({ σ with w := w, pc := σ.freshPc op }, h)

/-- The machine at the start: no pipe has been made. -/
def boot (m : Mmu H) (kstack : ℕ) (kernCode : UInt32) : PipeMachine H where
  w := Machine.boot m kstack kernCode
  ring _ := .empty 0
  pc _ := .out

/-- The states that operations lead to from the start, when each is one that `ok` permits. -/
inductive PipeReaches (ok : PipeMachine H → PipeOp H → Prop) : PipeMachine H → History → Prop where
  | start (m : Mmu H) (kstack : ℕ) (kernCode : UInt32) :
    PipeReaches ok (boot m kstack kernCode) ⟨fun _ => [], fun _ => []⟩
  | step {σ σ' : PipeMachine H} {h h' : History} {op : PipeOp H} (hr : PipeReaches ok σ h)
      (ha : σ.Allowed op) (hs : ok σ op) (hst : σ.step h op = some (σ', h')) : PipeReaches ok σ' h'

/-! ## The byte stream -/

section

omit [PageAlloc H]

variable {σ σ' : PipeMachine H} {a len : ℕ} {o : Outcome} {l : List UInt8}

/-- **`pipe_rd`** returns the oldest bytes. -/
theorem pipeRd_spec (h : (σ.ring a).WF kPipeBytes) (hr : σ.pipeRd a len = some (o, l, σ')) :
    (σ'.ring a).WF kPipeBytes ∧ (σ.ring a).contents kPipeBytes =
    l ++ (σ'.ring a).contents kPipeBytes ∧
      ∀ b, b ≠ a → σ'.ring b = σ.ring b := by
  rw [pipeRd] at hr
  split at hr
  · obtain ⟨k, -, he⟩ := Option.map_eq_some_iff.mp hr
    obtain ⟨rfl, hl, rfl⟩ : _ ∧ _ ∧ _ := by simpa using he
    subst hl
    exact ⟨h, rfl, fun _ _ => rfl⟩
  · split at hr
    · obtain ⟨rfl, hl, rfl⟩ : _ ∧ _ ∧ _ := by simpa using hr
      subst hl
      exact ⟨h, rfl, fun _ _ => rfl⟩
    · obtain ⟨h₁, h₂, -⟩ := Ring.takeUpTo_spec h len
      obtain ⟨rfl, rfl, rfl⟩ : _ ∧ _ ∧ _ := by simpa using hr
      have hself : ((((σ.setKernel (σ.w.k.wakeWr a)).setRing a ((σ.ring a).takeUpTo kPipeBytes
          len).2).setPc σ.current .out).ring a) = ((σ.ring a).takeUpTo kPipeBytes len).2 :=
        Function.update_self _ _ _
      rw [hself]
      exact ⟨h₁, h₂, fun b hb => Function.update_of_ne hb _ _⟩

/-- **`pipe_wr`** stores bytes at the end, the first of those it was given; what is left of them is
kept for the next time when it parks, and there is nothing left when it reports success. -/
theorem pipeWr_spec {rest : List UInt8} {put : ℕ} (h : (σ.ring a).WF kPipeBytes)
    (hr : σ.pipeWr a rest put = some (o, l, σ')) :
    (σ'.ring a).WF kPipeBytes ∧ (σ'.ring a).contents kPipeBytes =
    (σ.ring a).contents kPipeBytes ++ l ∧
      (∀ b, b ≠ a → σ'.ring b = σ.ring b) ∧
      ∃ left, rest = l ++ left ∧ (o = .parked → σ'.pc σ.current = .wr a left (put + l.length)) ∧
        ∀ r, o = .done r → r = -1 ∨ left = [] ∧ r = (put + l.length : ℕ) := by
  induction rest generalizing σ put l with
  | nil =>
    obtain ⟨rfl, hl, rfl⟩ : _ ∧ _ ∧ _ := by simpa [pipeWr] using hr
    subst hl
    refine ⟨h, (List.append_nil _).symm, fun _ _ => rfl, [], rfl, fun he => ?_, fun r he => ?_⟩
    · cases he
    · obtain rfl := Outcome.done.inj he
      exact Or.inr ⟨rfl, rfl⟩
  | cons c rest ih =>
    rw [pipeWr] at hr
    split at hr
    · obtain ⟨k, -, he⟩ := Option.map_eq_some_iff.mp hr
      obtain ⟨rfl, hl, rfl⟩ : _ ∧ _ ∧ _ := by simpa using he
      subst hl
      refine ⟨h, (List.append_nil _).symm, fun _ _ => rfl, c :: rest, rfl,
        fun _ => ?_, fun r he => ?_⟩
      · exact Function.update_self _ _ _
      · cases he
    · split at hr
      · obtain ⟨rfl, hl, rfl⟩ : _ ∧ _ ∧ _ := by simpa using hr
        subst hl
        refine ⟨h, (List.append_nil _).symm, fun _ _ => rfl, c :: rest, rfl, fun he => ?_,
          fun r he => ?_⟩
        · cases he
        · exact Or.inl (Outcome.done.inj he).symm
      · next hfull =>
        obtain ⟨⟨o', l', σ₂⟩, hrec, he⟩ := Option.map_eq_some_iff.mp hr
        obtain ⟨rfl, rfl, rfl⟩ : _ ∧ _ ∧ _ := by simpa using he
        set σ₁ := (σ.setRing a ((σ.ring a).put kPipeBytes c)).setKernel (σ.w.k.wakeRd a) with hσ₁
        have hring : σ₁.ring a = (σ.ring a).put kPipeBytes c := Function.update_self _ _ _
        have hlt : (σ.ring a).n < kPipeBytes := lt_of_le_of_ne h.n_le hfull
        obtain ⟨h₁, h₂, h₃, left, h₄, h₅, h₆⟩ :=
          ih (σ := σ₁) (by rw [hring]; exact h.put hlt c) hrec
        have hcur : σ₁.current = σ.current := (Kernel.wakes_wakeRd σ.w.k a).current
        have hlen : put + 1 + l'.length = put + (c :: l').length := by
          rw [List.length_cons]
          omega
        refine ⟨h₁, ?_, fun b hb => (h₃ b hb).trans (Function.update_of_ne hb _ _),
          left, ?_, ?_, ?_⟩
        · rw [h₂, hring, Ring.contents_put h hlt, List.append_assoc]
          rfl
        · rw [h₄]
          rfl
        · rw [hcur, hlen] at h₅
          exact h₅
        · rw [hlen] at h₆
          exact h₆

/-! A call ends: it parks or returns, and does not go round for ever. -/

theorem pipeRd_isSome (hb : (σ.w.k.tasks σ.current).state ≠ .blocked) (a len : ℕ) :
    (σ.pipeRd a len).isSome := by
  rw [pipeRd]
  split
  · rw [Option.isSome_map]
    have hslot : ∀ o o' p, Kernel.setRdWait o (Kernel.setRdWait o' p) = Kernel.setRdWait o p :=
      fun _ _ _ => rfl
    rw [Kernel.parkOn_eq a hslot hb]
    rfl
  · split
    · rfl
    · rfl

theorem pipeWr_isSome (hb : (σ.w.k.tasks σ.current).state ≠ .blocked) (a : ℕ) (rest : List UInt8)
    (put : ℕ) : (σ.pipeWr a rest put).isSome := by
  induction rest generalizing σ put with
  | nil => rfl
  | cons c rest ih =>
    rw [pipeWr]
    split
    · rw [Option.isSome_map]
      have hslot : ∀ o o' p, Kernel.setWrWait o (Kernel.setWrWait o' p) = Kernel.setWrWait o p :=
        fun _ _ _ => rfl
      rw [Kernel.parkOn_eq a hslot hb]
      rfl
    · split
      · rfl
      · rw [Option.isSome_map]
        have hw := Kernel.wakes_wakeRd σ.w.k a
        refine ih (σ := (σ.setRing a ((σ.ring a).put kPipeBytes c)).setKernel (σ.w.k.wakeRd a))
          (fun hb' => ?_) (put + 1)
        change ((σ.w.k.wakeRd a).tasks (σ.w.k.wakeRd a).current).state = .blocked at hb'
        rw [hw.current] at hb'
        rcases hw.state σ.current with he | ⟨he, -⟩
        · exact hb (he ▸ hb')
        · exact hb he

end

/-- Both sequences agree with what is in each buffer. -/
def Stream (σ : PipeMachine H) (h : History) : Prop :=
  ∀ a, (σ.ring a).WF kPipeBytes ∧ h.stored a = h.returned a ++ (σ.ring a).contents kPipeBytes

omit [PageAlloc H] in
theorem Stream.same {σ σ' : PipeMachine H} {h : History} (hs : Stream σ h) (hr : σ'.ring = σ.ring) :
    Stream σ' h := by
  rw [Stream, hr]
  exact hs

omit [PageAlloc H] in
theorem Stream.read {σ σ' σ'' : PipeMachine H} {h : History} {a len : ℕ} {o : Outcome}
    {l : List UInt8} (hs : Stream σ h) (he : σ'.ring = σ.ring)
    (hr : σ'.pipeRd a len = some (o, l, σ'')) : Stream σ'' (h.giveBack a l) := by
  obtain ⟨h₁, h₂, h₃⟩ := pipeRd_spec (by rw [he]; exact (hs a).1) hr
  intro b
  by_cases hb : b = a
  · subst hb
    refine ⟨h₁, ?_⟩
    rw [History.giveBack_stored, History.giveBack_returned, Function.update_self, (hs b).2,
      List.append_assoc, ← h₂, he]
  · rw [h₃ b hb, he]
    refine ⟨(hs b).1, ?_⟩
    rw [History.giveBack_stored, History.giveBack_returned, Function.update_of_ne hb]
    exact (hs b).2

omit [PageAlloc H] in
theorem Stream.write {σ σ' σ'' : PipeMachine H} {h : History} {a put : ℕ} {rest : List UInt8}
    {o : Outcome} {l : List UInt8} (hs : Stream σ h) (he : σ'.ring = σ.ring)
    (hr : σ'.pipeWr a rest put = some (o, l, σ'')) : Stream σ'' (h.store a l) := by
  obtain ⟨h₁, h₂, h₃, -⟩ := pipeWr_spec (by rw [he]; exact (hs a).1) hr
  intro b
  by_cases hb : b = a
  · subst hb
    refine ⟨h₁, ?_⟩
    rw [History.store_stored, History.store_returned, Function.update_self, (hs b).2, h₂,
      he, List.append_assoc]
  · rw [h₃ b hb, he]
    refine ⟨(hs b).1, ?_⟩
    rw [History.store_stored, History.store_returned, Function.update_of_ne hb]
    exact (hs b).2

/-- **One operation.** -/
theorem Stream.step {σ σ' : PipeMachine H} {h h' : History} {op : PipeOp H} (hs : Stream σ h)
    (hst : σ.step h op = some (σ', h')) : Stream σ' h' := by
  cases op with
  | read a len =>
    obtain ⟨⟨o, l, σ₁⟩, hr, he⟩ := Option.map_eq_some_iff.mp hst
    obtain ⟨rfl, rfl⟩ := Prod.mk.inj he
    exact hs.read rfl hr
  | write a s =>
    obtain ⟨⟨o, l, σ₁⟩, hr, he⟩ := Option.map_eq_some_iff.mp hst
    obtain ⟨rfl, rfl⟩ := Prod.mk.inj he
    exact hs.write rfl hr
  | resume =>
    obtain ⟨⟨o, l, σ₁⟩, hr, he⟩ := Option.map_eq_some_iff.mp hst
    obtain ⟨rfl, rfl⟩ := Prod.mk.inj he
    rw [resume] at hr
    cases hpc : σ.pc σ.current with
    | out =>
      rw [hpc] at hr
      cases hr
    | rd a len =>
      rw [hpc] at hr
      dsimp only at hr
      have hring : (σ.setKernel (σ.w.k.unpark a Kernel.setRdWait)).ring = σ.ring := rfl
      exact hs.read hring hr
    | wr a rest put =>
      rw [hpc] at hr
      dsimp only at hr
      have hring : (σ.setKernel (σ.w.k.unpark a Kernel.setWrWait)).ring = σ.ring := rfl
      exact hs.write hring hr
  | pipe =>
    have he := Option.some.inj hst
    rw [makePipe] at he
    cases hp : σ.w.k.freePipe with
    | none =>
      rw [hp] at he
      obtain ⟨rfl, rfl⟩ := Prod.mk.inj he
      exact hs.same rfl
    | some p =>
      rw [hp] at he
      obtain ⟨rfl, rfl⟩ := Prod.mk.inj he
      intro b
      by_cases hb : b = Kernel.pipeAddr p
      · subst hb
        have hring : ((σ.setKernel σ.w.k.pipe.2).setRing (Kernel.pipeAddr p)
            (.empty 0)).ring (Kernel.pipeAddr p) = .empty 0 :=
          Function.update_self _ _ _
        rw [hring, History.clear_stored, History.clear_returned, Function.update_self,
          Function.update_self]
        exact ⟨.empty (by decide) 0, rfl⟩
      · have hring : ((σ.setKernel σ.w.k.pipe.2).setRing (Kernel.pipeAddr p)
            (.empty 0)).ring b = σ.ring b := Function.update_of_ne hb _ _
        rw [hring, History.clear_stored, History.clear_returned, Function.update_of_ne hb,
          Function.update_of_ne hb]
        exact hs b
  | dup2 old nw =>
    obtain ⟨rfl, rfl⟩ := Prod.mk.inj (Option.some.inj hst)
    exact hs.same rfl
  | fdInstall into childFd src =>
    obtain ⟨rfl, rfl⟩ := Prod.mk.inj (Option.some.inj hst)
    exact hs.same rfl
  | fdClose fd =>
    obtain ⟨rfl, rfl⟩ := Prod.mk.inj (Option.some.inj hst)
    exact hs.same rfl
  | plain op =>
    obtain ⟨w, -, he⟩ := Option.map_eq_some_iff.mp hst
    obtain ⟨rfl, rfl⟩ := Prod.mk.inj he
    exact hs.same rfl

/-- **The byte stream.** After any reads and writes of any processes, in any order and however often
they parked, what was stored in a pipe is what was returned from it and then what is in its buffer,
and the positions are in the buffer. -/
theorem pipe_stream {ok : PipeMachine H → PipeOp H → Prop} {σ : PipeMachine H} {h : History}
    (hr : PipeReaches ok σ h) (a : ℕ) :
    h.stored a = h.returned a ++ (σ.ring a).contents kPipeBytes ∧
      (σ.ring a).head < kPipeBytes ∧ (σ.ring a).tail < kPipeBytes ∧ (σ.ring a).n ≤ kPipeBytes := by
  have hs : Stream σ h := by
    induction hr with
    | start m kstack kernCode => exact fun a => ⟨.empty (by decide) 0, rfl⟩
    | step _ _ _ hst ih => exact ih.step hst
  obtain ⟨hwf, hstream⟩ := hs a
  exact ⟨hstream, hwf.head_lt, hwf.tail_lt, hwf.n_le⟩

/-- After one more operation; a panic would leave the machine where it is. -/
def after (x : PipeMachine H × History) (op : PipeOp H) : PipeMachine H × History :=
  (x.1.step x.2 op).getD x

theorem PipeReaches.did {ok : PipeMachine H → PipeOp H → Prop} {x : PipeMachine H × History}
    (hr : PipeReaches ok x.1 x.2) (op : PipeOp H) (ha : x.1.Allowed op) (hs : ok x.1 op)
    (hst : (x.1.step x.2 op).isSome) : PipeReaches ok (after x op).1 (after x op).2 := by
  refine hr.step ha hs ?_
  rw [after, ← Option.get_eq_getD _ (h := hst), Option.some_get]

/-- Nothing has happened yet. -/
def started : PipeMachine Pages.Bump × History :=
  (boot { bare.spaceCreate.2 with boot := 4096 } 8192 8, ⟨fun _ => [], fun _ => []⟩)

/-- The first process makes a pipe and forks. -/
def forked : PipeMachine Pages.Bump × History :=
  after (after started .pipe) (.plain (.fork { Registers.zero with cs := 0x1B }))

/-- It reads, and parks. -/
def waited : PipeMachine Pages.Bump × History := after forked (.read 1 1)

/-- The child writes two bytes. -/
def written : PipeMachine Pages.Bump × History :=
  after (after (after waited (.plain .pick)) (.plain .switch)) (.write 1 [7, 8])

/-- The reader goes on, and takes one of them. -/
def taken : PipeMachine Pages.Bump × History :=
  after (after (after written (.plain .pick)) (.plain .switch)) .resume

theorem reaches_forked {ok : PipeMachine Pages.Bump → PipeOp Pages.Bump → Prop}
    (hpipe : ok started.1 .pipe)
    (hfork : ok (after started .pipe).1 (.plain (.fork { Registers.zero with cs := 0x1B }))) :
    PipeReaches ok forked.1 forked.2 := by
  have h₀ : PipeReaches ok started.1 started.2 := .start _ _ _
  have h₁ := h₀.did .pipe ⟨rfl, rfl, by decide +kernel⟩ hpipe rfl
  exact h₁.did _ ⟨rfl, rfl⟩ hfork (by decide +kernel)

/-- The reader is picked and goes on. -/
theorem PipeReaches.turn {ok : PipeMachine H → PipeOp H → Prop} {x : PipeMachine H × History}
    (hr : PipeReaches ok x.1 x.2) (hp : x.1.w.pending = none) (hok : ∀ σ, ok σ (.plain .pick))
    (hs : ok (after x (.plain .pick)).1 (.plain .switch))
    (hst : ((after x (.plain .pick)).1.step (after x (.plain .pick)).2 (.plain .switch)).isSome) :
    PipeReaches ok (after (after x (.plain .pick)) (.plain .switch)).1
      (after (after x (.plain .pick)) (.plain .switch)).2 :=
  (hr.did (.plain .pick) ⟨hp, trivial⟩ (hok _) rfl).did (.plain .switch) ⟨trivial, trivial⟩ hs hst

/-- One byte is back, and the other is in the buffer. -/
theorem pipe_stream_taken : taken.2.stored 1 = [7] ++ (taken.1.ring 1).contents kPipeBytes ∧
    (taken.1.ring 1).contents kPipeBytes = [8] := by
  have h₀ : PipeReaches (fun _ _ => True) forked.1 forked.2 := reaches_forked trivial trivial
  have h₁ : PipeReaches (fun _ _ => True) waited.1 waited.2 :=
    h₀.did (.read 1 1) ⟨by decide, by decide +kernel, by decide +kernel, by decide +kernel⟩ trivial
      (by decide +kernel)
  have h₂ : PipeReaches (fun _ _ => True) written.1 written.2 :=
    (h₁.turn (by decide +kernel) (fun _ => trivial) trivial (by decide +kernel)).did
      (.write 1 [7, 8])
      ⟨by decide, by decide +kernel, by decide +kernel, by decide +kernel⟩ trivial
      (by decide +kernel)
  have h₃ : PipeReaches (fun _ _ => True) taken.1 taken.2 :=
    (h₂.turn (by decide +kernel) (fun _ => trivial) trivial (by decide +kernel)).did .resume
      ⟨by decide +kernel, by decide +kernel, by decide +kernel, by decide +kernel⟩ trivial
      (by decide +kernel)
  have hret : taken.2.returned 1 = [7] := by decide +kernel
  have h := (pipe_stream h₃ 1).1
  rw [hret] at h
  exact ⟨h, by decide +kernel⟩

end PipeMachine

end Aurisys
