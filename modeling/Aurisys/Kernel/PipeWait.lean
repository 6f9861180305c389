import Aurisys.Kernel.Pipe

/-!
# Who waits at a pipe

A pipe has one place for a reader that waits and one for a writer. The task in it should be the one
that is parked there: then whoever brings data, makes room or leaves wakes the right one.

There are two ways for this to go wrong. One is that the place is used by two: `block_on` writes it
without looking, before it parks and again when it comes back, so a second reader takes the place of
the first, and a reader that comes back late wipes out the next. The other is that a parked task is
made to move by something else: a signal, a tick that finds a signal pending, a key whose reader
died and whose slot was used again. `Undisturbed` says that none of this happens. Then the places
are right, a parked reader has nothing to read and somebody to wait for, and a parked writer has no
room and somebody to wait for.

As in `Kernel.Pipe`, a call is not stopped between two parks, although a tick may come there and an
interrupt key may then kill the caller.

## Main definitions

* `Registered` — the invariant
* `Keeps` — a change that concerns no task in a call on a pipe
* `Undisturbed`

## Main results

* `waiters_registered`
-/

namespace Aurisys

open Paging

/-! The two sides of a pipe: `false` is for those who read and wait for writers, `true` for those
who write and wait for readers. -/

/-- Who is recorded on a side. -/
def Pipe.place (p : Pipe) : Bool → Option (Fin kMaxTask)
  | false => p.rdWait
  | true => p.wrWait

/-- How many ends there are whose owners could help. -/
def Pipe.far (p : Pipe) : Bool → ℕ
  | false => p.writers
  | true => p.readers

/-- How many bytes are in a pipe where one waits. -/
def waitsAt : Bool → ℕ
  | false => 0
  | true => kPipeBytes

/-- The task is in a call on a side of the pipe at an address. -/
def Pc.At (c : Pc) (a : ℕ) : Bool → Prop
  | false => ∃ len, c = .rd a len
  | true => ∃ rest put, c = .wr a rest put

theorem Pc.At.ne_out {c : Pc} {a : ℕ} {d : Bool} (h : c.At a d) : c ≠ .out := by
  cases d with
  | false =>
    obtain ⟨len, rfl⟩ := h
    exact Pc.noConfusion
  | true =>
    obtain ⟨rest, put, rfl⟩ := h
    exact Pc.noConfusion

/-- A task is in one call. -/
theorem Pc.At.unique {c : Pc} {a b : ℕ} {d e : Bool} (h : c.At a d) (h' : c.At b e) :
    a = b ∧ d = e := by
  cases d with
  | false =>
    obtain ⟨len, rfl⟩ := h
    cases e with
    | false =>
      obtain ⟨len', he⟩ := h'
      exact ⟨(Pc.rd.inj he).1, rfl⟩
    | true =>
      obtain ⟨rest, put, he⟩ := h'
      cases he
  | true =>
    obtain ⟨rest, put, rfl⟩ := h
    cases e with
    | false =>
      obtain ⟨len', he⟩ := h'
      cases he
    | true =>
      obtain ⟨rest', put', he⟩ := h'
      exact ⟨(Pc.wr.inj he).1, rfl⟩

namespace Kernel

variable {H : Type} {k k' k'' : Kernel H} {pc : Fin kMaxTask → Pc} {n : ℕ → ℕ}
  {i j : Fin kMaxTask} {a : ℕ} {d : Bool}

/-- Whoever is parked at a pipe is the one recorded there, and has a reason to wait. -/
structure Registered (pc : Fin kMaxTask → Pc) (n : ℕ → ℕ) (k : Kernel H) : Prop where
  /-- The place has who is parked there. -/
  place : ∀ d a i, (k.pipes a).place d = some i ↔ (pc i).At a d ∧ (k.tasks i).state = .blocked
  /-- Nothing can be moved, and the other side is there. -/
  why : ∀ d a i, (pc i).At a d → (k.tasks i).state = .blocked →
    n a = waitsAt d ∧ (k.pipes a).far d ≠ 0
  /-- Whoever is in a call waits for nothing else. -/
  quiet : ∀ i, pc i ≠ .out → (k.tasks i).waiting = false ∧ (k.tasks i).sleepUntil = 0

/-- Nothing changes for the tasks that are in a call on a pipe, nor for the pipes, except that ends
may be added. -/
structure Keeps (pc : Fin kMaxTask → Pc) (k k' : Kernel H) : Prop where
  /-- Who was parked is parked, -/
  blocked : ∀ i, pc i ≠ .out → ((k'.tasks i).state = .blocked ↔ (k.tasks i).state = .blocked)
  /-- and waits for nothing else. -/
  quiet : ∀ i, pc i ≠ .out → (k'.tasks i).waiting = (k.tasks i).waiting ∧
    (k'.tasks i).sleepUntil = (k.tasks i).sleepUntil
  /-- No signal came. -/
  sig : ∀ i, pc i ≠ .out → (k.tasks i).state = .blocked →
    (k'.tasks i).sigPending = (k.tasks i).sigPending
  /-- The places are as they were. -/
  place : ∀ a d, (k'.pipes a).place d = (k.pipes a).place d
  /-- No side has lost its last end. -/
  far : ∀ a d, (k.pipes a).far d ≠ 0 → (k'.pipes a).far d ≠ 0

theorem Keeps.refl (k : Kernel H) : Keeps pc k k :=
  ⟨fun _ _ => Iff.rfl, fun _ _ => ⟨rfl, rfl⟩, fun _ _ _ => rfl, fun _ _ => rfl, fun _ _ => id⟩

theorem Keeps.trans (h : Keeps pc k k') (h' : Keeps pc k' k'') : Keeps pc k k'' where
  blocked i hi := (h'.blocked i hi).trans (h.blocked i hi)
  quiet i hi := ⟨(h'.quiet i hi).1.trans (h.quiet i hi).1, (h'.quiet i hi).2.trans (h.quiet i hi).2⟩
  sig i hi hb := (h'.sig i hi ((h.blocked i hi).mpr hb)).trans (h.sig i hi hb)
  place a d := (h'.place a d).trans (h.place a d)
  far a d ha := h'.far a d (h.far a d ha)

theorem Registered.keeps (h : Registered pc n k) (hk : Keeps pc k k') : Registered pc n k' where
  place d a i := by
    rw [hk.place, h.place]
    exact and_congr_right fun hat => (hk.blocked i hat.ne_out).symm
  why d a i hat hb := by
    obtain ⟨h₁, h₂⟩ := h.why d a i hat ((hk.blocked i hat.ne_out).mp hb)
    exact ⟨h₁, hk.far a d h₂⟩
  quiet i hi := by
    rw [(hk.quiet i hi).1, (hk.quiet i hi).2]
    exact h.quiet i hi

theorem Registered.foldl {β : Type} {f : Kernel H → β → Kernel H}
    (hf : ∀ k, Registered pc n k → ∀ b, Registered pc n (f k b)) (h : Registered pc n k)
    (l : List β) : Registered pc n (l.foldl f k) := by
  induction l generalizing k with
  | nil => exact h
  | cons b l ih => exact ih (hf k h b)

/-- One entry changes: that of a task in no call, or in nothing that matters to a call. -/
theorem Keeps.setTask {t : Task} (h : pc i ≠ .out →
    (t.state = .blocked ↔ (k.tasks i).state = .blocked) ∧ t.waiting = (k.tasks i).waiting ∧
      t.sleepUntil = (k.tasks i).sleepUntil ∧
      ((k.tasks i).state = .blocked → t.sigPending = (k.tasks i).sigPending)) :
    Keeps pc k (k.setTask i t) := by
  have htask : ∀ j, (k.setTask i t).tasks j = if j = i then t else k.tasks j := fun j => by
    rw [setTask_tasks, Function.update_apply]
  refine ⟨fun j hj => ?_, fun j hj => ?_, fun j hj hb => ?_, fun _ _ => rfl, fun _ _ => id⟩ <;>
    rw [htask] <;> split
  · next he =>
    subst he
    exact (h hj).1
  · exact Iff.rfl
  · next he =>
    subst he
    exact ⟨(h hj).2.1, (h hj).2.2.1⟩
  · exact ⟨rfl, rfl⟩
  · next he =>
    subst he
    exact (h hj).2.2.2 hb
  · rfl

theorem Keeps.setMmu (k : Kernel H) (m : Mmu H) : Keeps pc k (k.setMmu m) :=
  ⟨fun _ _ => Iff.rfl, fun _ _ => ⟨rfl, rfl⟩, fun _ _ _ => rfl, fun _ _ => rfl, fun _ _ => id⟩

theorem Keeps.setPipes {pipes : ℕ → Pipe} (hp : ∀ a d, (pipes a).place d = (k.pipes a).place d)
    (hf : ∀ a d, (k.pipes a).far d ≠ 0 → (pipes a).far d ≠ 0) : Keeps pc k (k.setPipes pipes) :=
  ⟨fun _ _ => Iff.rfl, fun _ _ => ⟨rfl, rfl⟩, fun _ _ _ => rfl, hp, hf⟩

/-- A task in no call is woken, or one that is not parked is told it need not park. -/
theorem keeps_unblock (h : pc i ≠ .out → (k.tasks i).state ≠ .blocked) :
    Keeps pc k (k.unblock i) := by
  rw [unblock]
  split
  · next hb => exact .setTask fun hi => absurd hb (h hi)
  · exact .setTask fun _ => ⟨Iff.rfl, rfl, rfl, fun _ => rfl⟩

theorem Keeps.foldl {β : Type} {f : Kernel H → β → Kernel H} {P : Kernel H → Prop} {l : List β}
    (hP : ∀ k k', P k → Keeps pc k k' → P k') (hf : ∀ k, P k → ∀ b ∈ l, Keeps pc k (f k b))
    (h : P k) : Keeps pc k (l.foldl f k) := by
  induction l generalizing k with
  | nil => exact .refl k
  | cons b l ih =>
    have h₁ := hf k h b List.mem_cons_self
    exact h₁.trans (ih (fun k hk c hc => hf k hk c (List.mem_cons_of_mem b hc)) (hP k _ h h₁))

/-- A parent that is in a call on a pipe does not wait for a child. -/
theorem keeps_announce (hq : ∀ i, pc i ≠ .out → (k.tasks i).waiting = false) (i : Fin kMaxTask) :
    Keeps pc k (k.announce i) := by
  rw [announce]
  cases k.find (k.tasks i).ppid with
  | none => exact .refl k
  | some p =>
    dsimp only
    split
    · exact .refl k
    · split
      · exact .refl k
      · generalize hn : Note.mk _ _ = note
        have hset : Keeps pc k
          (k.setTask p { k.tasks p with done := (k.tasks p).done ++ [note] }) :=
          .setTask fun _ => ⟨Iff.rfl, rfl, rfl, fun _ => rfl⟩
        split
        · next hw =>
          refine hset.trans (keeps_unblock fun hp => ?_)
          rw [hq p hp] at hw
          cases hw
        · exact hset

/-! ## Whoever waits is woken -/

theorem unblock_of_blocked (hb : (k.tasks j).state = .blocked) (i : Fin kMaxTask) :
    ((k.unblock j).tasks i).state = if i = j then .ready else (k.tasks i).state := by
  rw [unblock, if_pos hb, setTask_tasks, Function.update_apply]
  split
  · rfl
  · rfl

theorem unblock_quiet (k : Kernel H) (j i : Fin kMaxTask) :
    ((k.unblock j).tasks i).waiting = (k.tasks i).waiting ∧
      ((k.unblock j).tasks i).sleepUntil = (k.tasks i).sleepUntil := by
  rw [unblock]
  split <;> rw [setTask_tasks, Function.update_apply] <;> split
  · next hi => rw [hi]; exact ⟨rfl, rfl⟩
  · exact ⟨rfl, rfl⟩
  · next hi => rw [hi]; exact ⟨rfl, rfl⟩
  · exact ⟨rfl, rfl⟩

theorem setPipe_pipes (k : Kernel H) (a b : ℕ) (p : Pipe) :
    (k.setPipe a p).pipes b = if b = a then p else k.pipes b := Function.update_apply _ _ _ _

/-- Where nobody is recorded nobody is parked. -/
theorem Registered.nobody (h : Registered pc n k) (ho : (k.pipes a).place d = none)
    (hat : (pc i).At a d) : (k.tasks i).state ≠ .blocked := fun hb => by
  rw [(h.place d a i).mpr ⟨hat, hb⟩] at ho
  cases ho

/-- **A wakeup.** The task recorded on a side, if there is one, is ready, and its place is empty;
the other side is as it was. -/
theorem Registered.wake (h : Registered pc n k) (d : Bool) (p : Pipe) (hd : p.place d = none)
    (hother : p.place (!d) = (k.pipes a).place (!d))
    (hfar : (k.pipes a).far (!d) ≠ 0 → p.far (!d) ≠ 0) :
    Registered pc n ((((k.pipes a).place d).elim k k.unblock).setPipe a p) := by
  set k₁ := ((k.pipes a).place d).elim k k.unblock with hk₁
  have hpipes : k₁.pipes = k.pipes := elim_unblock_pipes k _
  -- Those who are blocked afterwards were blocked before, and nobody who is was on this side.
  have hblk : ∀ i, pc i ≠ .out → ((k₁.tasks i).state = .blocked ↔
      ¬(pc i).At a d ∧ (k.tasks i).state = .blocked) := by
    intro i hi
    rw [hk₁]
    cases ho : (k.pipes a).place d with
    | none =>
      refine ⟨fun hb => ⟨fun hat => h.nobody ho hat hb, hb⟩, fun hb => hb.2⟩
    | some j =>
      obtain ⟨hat, hb⟩ := (h.place d a j).mp ho
      rw [Option.elim_some, unblock_of_blocked hb]
      split
      · next he =>
        subst he
        exact iff_of_false TaskState.noConfusion fun hn => hn.1 hat
      · next hne =>
        refine ⟨fun hb' => ⟨fun hat' => hne ?_, hb'⟩, fun hb' => hb'.2⟩
        rw [(h.place d a i).mpr ⟨hat', hb'⟩] at ho
        exact Option.some.inj ho
  have hquiet : ∀ i, (k₁.tasks i).waiting = (k.tasks i).waiting ∧
      (k₁.tasks i).sleepUntil = (k.tasks i).sleepUntil := by
    intro i
    rw [hk₁]
    cases (k.pipes a).place d with
    | none => exact ⟨rfl, rfl⟩
    | some j => exact unblock_quiet k j i
  refine ⟨fun e b i => ?_, fun e b i hat hb => ?_, fun i hi => ?_⟩
  · change ((k₁.setPipe a p).pipes b).place e = some i ↔ _ ∧ (k₁.tasks i).state = .blocked
    rw [setPipe_pipes, hpipes]
    by_cases he : b = a ∧ e = d
    · obtain ⟨rfl, rfl⟩ := he
      rw [if_pos rfl, hd]
      refine iff_of_false (fun he => Option.some_ne_none i he.symm) fun hn => ?_
      exact ((hblk i hn.1.ne_out).mp hn.2).1 hn.1
    · have hsame : (if b = a then p else k.pipes b).place e = (k.pipes b).place e := by
        split
        · next hba =>
          obtain rfl : e = !d := by
            rcases Bool.eq_or_eq_not e d with hed | hed
            · exact absurd ⟨hba, hed⟩ he
            · exact hed
          rw [hother, hba]
        · rfl
      rw [hsame, h.place]
      refine and_congr_right fun hat => ?_
      rw [hblk i hat.ne_out]
      exact (and_iff_right fun hat' => he (hat.unique hat')).symm
  · change (k₁.tasks i).state = .blocked at hb
    obtain ⟨hnot, hb'⟩ := (hblk i hat.ne_out).mp hb
    obtain ⟨h₁, h₂⟩ := h.why e b i hat hb'
    refine ⟨h₁, ?_⟩
    rw [setPipe_pipes, hpipes]
    split
    · next hba =>
      subst hba
      obtain rfl : e = !d := by
        rcases Bool.eq_or_eq_not e d with rfl | hed
        · exact absurd hat hnot
        · exact hed
      exact hfar h₂
    · exact h₂
  · change (k₁.tasks i).waiting = false ∧ (k₁.tasks i).sleepUntil = 0
    rw [(hquiet i).1, (hquiet i).2]
    exact h.quiet i hi

/-! ## An end goes -/

theorem shutIdle_place (p : Pipe) (d : Bool) : (shutIdle p).place d = p.place d ∧
    (shutIdle p).far d = p.far d := by
  rw [shutIdle]
  split
  · cases d <;> exact ⟨rfl, rfl⟩
  · exact ⟨rfl, rfl⟩

/-- The side whose waiters an end that goes may let down: readers, when a writer goes. -/
def sideOf (writeEnd : Prop) [Decidable writeEnd] : Bool := !decide writeEnd

/-- The place of whoever was waiting is empty afterwards, also if nobody was. -/
theorem clearRd_rdWait (p : Pipe) : clearRd p p.rdWait = setRdWait none p := by
  rw [clearRd, setRdWait]
  split
  · rfl
  · next h =>
    obtain ⟨r, w, rd, wr, o⟩ := p
    obtain rfl : rd = none := Option.not_isSome_iff_eq_none.mp h
    rfl

theorem clearWr_wrWait (p : Pipe) : clearWr p p.wrWait = setWrWait none p := by
  rw [clearWr, setWrWait]
  split
  · rfl
  · next h =>
    obtain ⟨r, w, rd, wr, o⟩ := p
    obtain rfl : wr = none := Option.not_isSome_iff_eq_none.mp h
    rfl

theorem clearRd_none (p : Pipe) : clearRd p none = p := rfl

/-- What is left when an end goes: if it was not the last of its kind the places stay as they are,
and otherwise the place of those who waited for one is empty. -/
theorem unshared_place (k : Kernel H) (p : Pipe) (w : Prop) [Decidable w] :
    (k.wakeFar p w = k ∧ (∀ d, (unshared p w).place d = p.place d) ∧
        ∀ d, p.far d ≠ 0 → (unshared p w).far d ≠ 0) ∨
      k.wakeFar p w = (p.place (sideOf w)).elim k k.unblock ∧
        (unshared p w).place (sideOf w) = none ∧
        (unshared p w).place (!sideOf w) = p.place (!sideOf w) ∧
        (p.far (!sideOf w) ≠ 0 → (unshared p w).far (!sideOf w) ≠ 0) := by
  rw [sideOf, unshared, wakeFar]
  simp only [shutIdle_place]
  by_cases hw : w
  · have hdrop : dropEnd p w = { p with writers := p.writers - 1 } := if_pos hw
    have hwr : ∀ q : Pipe, lastReader q w = none := fun q => if_neg fun h => h.1 hw
    rw [decide_eq_true hw, hdrop]
    simp only [hwr]
    by_cases hz : p.writers - 1 = 0
    · right
      have hrd : lastWriter { p with writers := p.writers - 1 } w = p.rdWait := if_pos ⟨hw, hz⟩
      rw [hrd, clearRd_rdWait { p with writers := p.writers - 1 }]
      exact ⟨rfl, rfl, rfl, id⟩
    · left
      have hrd : lastWriter { p with writers := p.writers - 1 } w = none := if_neg fun h => hz h.2
      rw [hrd]
      refine ⟨rfl, fun d => ?_, fun d hd => ?_⟩
      · cases d <;> rfl
      · cases d with
        | false => exact hz
        | true => exact hd
  · have hdrop : dropEnd p w = { p with readers := p.readers - 1 } := if_neg hw
    have hrd : ∀ q : Pipe, lastWriter q w = none := fun q => if_neg fun h => hw h.1
    rw [decide_eq_false hw, hdrop]
    simp only [hrd]
    by_cases hz : p.readers - 1 = 0
    · right
      have hwr : lastReader { p with readers := p.readers - 1 } w = p.wrWait := if_pos ⟨hw, hz⟩
      rw [clearRd_none, hwr, clearWr_wrWait { p with readers := p.readers - 1 }]
      exact ⟨rfl, rfl, rfl, id⟩
    · left
      have hwr : lastReader { p with readers := p.readers - 1 } w = none := if_neg fun h => hz h.2
      rw [clearRd_none, hwr]
      refine ⟨rfl, fun d => ?_, fun d hd => ?_⟩
      · cases d <;> rfl
      · cases d with
        | false => exact hd
        | true => exact hz

/-- **The last writer** wakes the reader that waits, and the last reader the writer. -/
theorem Registered.fdUnshare (h : Registered pc n k) (f : OFile) :
    Registered pc n (k.fdUnshare f) := by
  by_cases hf : f.n.type = .fifo ∧ f.n.internal ≠ 0
  · rw [fdUnshare_eq k hf.1 hf.2]
    rcases unshared_place k (k.pipes f.n.internal) (f.flags &&& kPipeWriteEnd ≠ 0) with
      ⟨h₁, h₂, h₃⟩ | ⟨h₁, h₂, h₃, h₄⟩
    · rw [h₁]
      refine h.keeps (.setPipes (fun b d => ?_) fun b d => ?_) <;>
        rw [Function.update_apply] <;> split
      · next hb => rw [h₂, hb]
      · rfl
      · next hb =>
        rw [hb]
        exact h₃ d
      · exact id
    · have hset := h.wake (sideOf (f.flags &&& kPipeWriteEnd ≠ 0))
        (unshared (k.pipes f.n.internal) (f.flags &&& kPipeWriteEnd ≠ 0)) h₂ h₃ h₄
      rw [← h₁] at hset
      rw [setPipe, wakeFar_pipes] at hset
      exact hset
  · rw [fdUnshare_of_not k hf]
    exact h

/-! ## Descriptors -/

/-- **`close_in`.** -/
theorem Registered.closeIn (h : Registered pc n k) (i : Fin kMaxTask) (fd : Fin kMaxFd) :
    Registered pc n (k.closeIn i fd) := by
  have h₁ : Registered pc n (((k.tasks i).fd fd).elim k k.fdUnshare) := by
    cases (k.tasks i).fd fd with
    | none => exact h
    | some f => exact h.fdUnshare f
  exact h₁.keeps (.setTask fun _ => ⟨Iff.rfl, rfl, rfl, fun _ => rfl⟩)

/-- **`fd_close_all`.** -/
theorem Registered.fdCloseAll (h : Registered pc n k) (i : Fin kMaxTask) :
    Registered pc n (k.fdCloseAll i) := by
  refine Registered.foldl (fun k hk fd => ?_) h _
  split
  · exact hk.closeIn i fd
  · exact hk

/-- One end more lets nobody down. -/
theorem fdShare_place (pipes : ℕ → Pipe) (f : OFile) (a : ℕ) (d : Bool) :
    (fdShare pipes f a).place d = (pipes a).place d ∧
      ((pipes a).far d ≠ 0 → (fdShare pipes f a).far d ≠ 0) := by
  rw [fdShare]
  split
  · exact ⟨rfl, id⟩
  · dsimp only
    rw [Function.update_apply]
    split
    · next ha =>
      rw [ha]
      split
      · cases d with
        | false => exact ⟨rfl, fun _ => Nat.succ_ne_zero _⟩
        | true => exact ⟨rfl, id⟩
      · cases d with
        | false => exact ⟨rfl, id⟩
        | true => exact ⟨rfl, fun _ => Nat.succ_ne_zero _⟩
    · exact ⟨rfl, id⟩

theorem fdShareAll_place (pipes : ℕ → Pipe) (fd : Fin kMaxFd → Option OFile) (a : ℕ) (d : Bool) :
    (fdShareAll pipes fd a).place d = (pipes a).place d ∧
      ((pipes a).far d ≠ 0 → (fdShareAll pipes fd a).far d ≠ 0) := by
  have hfold : ∀ (l : List (Fin kMaxFd)) (q : ℕ → Pipe),
      (l.foldl (fun q i => (fd i).elim q (fdShare q)) q a).place d = (q a).place d ∧
      ((q a).far d ≠ 0 → (l.foldl (fun q i => (fd i).elim q (fdShare q)) q a).far d ≠ 0) := by
    intro l
    induction l with
    | nil => exact fun _ => ⟨rfl, id⟩
    | cons i l ih =>
      intro q
      have hone : ((fd i).elim q (fdShare q) a).place d = (q a).place d ∧
          ((q a).far d ≠ 0 → ((fd i).elim q (fdShare q) a).far d ≠ 0) := by
        cases fd i with
        | none => exact ⟨rfl, id⟩
        | some f => exact fdShare_place q f a d
      obtain ⟨h₁, h₂⟩ := ih ((fd i).elim q (fdShare q))
      exact ⟨h₁.trans hone.1, fun hq => h₂ (hone.2 hq)⟩
  exact hfold _ pipes

theorem keeps_putFd (k : Kernel H) (i : Fin kMaxTask) (fd : Fin kMaxFd) (f : Option OFile) :
    Keeps pc k (k.putFd i fd f) := by
  have hset : Keeps pc k (k.setFile i fd f) := .setTask fun _ => ⟨Iff.rfl, rfl, rfl, fun _ => rfl⟩
  refine hset.trans (.setPipes (fun a d => ?_) fun a d => ?_)
  · cases f with
    | none => rfl
    | some f => exact (fdShare_place k.pipes f a d).1
  · cases f with
    | none => exact id
    | some f => exact (fdShare_place k.pipes f a d).2

/-- **`dup2`.** -/
theorem Registered.dup2 (h : Registered pc n k) (old nw : ℤ) :
    Registered pc n (k.dup2 old nw).2 := by
  rw [Kernel.dup2]
  split
  · next old nw _ _ =>
    split
    · exact h
    · have h₁ : Registered pc n
          (if ((k.tasks k.current).fd nw).isSome then k.closeIn k.current nw else k) := by
        split
        · exact h.closeIn k.current nw
        · exact h
      exact h₁.keeps (keeps_putFd _ _ _ _)
  · exact h

/-- **`fd_install`.** -/
theorem Registered.fdInstall (h : Registered pc n k) (into : Fin kMaxTask) (childFd src : ℤ) :
    Registered pc n (k.fdInstall into childFd src).2 := by
  rw [Kernel.fdInstall]
  split
  · next childFd src _ _ =>
    split
    · exact h
    · have h₁ : Registered pc n (((k.tasks into).fd childFd).elim k k.fdUnshare) := by
        cases (k.tasks into).fd childFd with
        | none => exact h
        | some f => exact h.fdUnshare f
      exact h₁.keeps (keeps_putFd _ _ _ _)
  · exact h

/-- **`fd_close`.** -/
theorem Registered.closeFd (h : Registered pc n k) (fd : ℤ) : Registered pc n (k.closeFd fd) := by
  rw [Kernel.closeFd]
  cases fdOf fd with
  | none => exact h
  | some fd => exact h.closeIn k.current fd

/-! ## The end of a process -/

/-- A process that is not parked ends. -/
theorem Registered.dies (h : Registered pc n k) {t : Task} (ht : t.state = .zombie)
    (hw : t.waiting = (k.tasks i).waiting) (hs : t.sleepUntil = (k.tasks i).sleepUntil)
    (hi : pc i ≠ .out → (k.tasks i).state ≠ .blocked) :
    Registered pc n (((k.setTask i t).fdCloseAll i).announce i) := by
  have hset : Keeps pc k (k.setTask i t) := by
    refine .setTask fun hout => ⟨?_, hw, hs, fun hb => absurd hb (hi hout)⟩
    rw [ht]
    exact iff_of_false TaskState.noConfusion (hi hout)
  have h₁ := (h.keeps hset).fdCloseAll i
  exact h₁.keeps (keeps_announce (fun j hj => (h₁.quiet j hj).1) i)

/-- **`exit`.** -/
theorem Registered.exit (h : Registered pc n k) (hc : pc k.current = .out) (code : UInt32) :
    Registered pc n (k.exit code) := by
  set t : Task := { k.tasks k.current with
    exitCode := code, state := .zombie
    signal := if (k.tasks k.current).state ≠ .killed then kSigNone
      else (k.tasks k.current).signal } with ht
  have h₁ : Registered pc n (((k.setTask k.current t).fdCloseAll k.current).announce k.current) :=
    h.dies rfl rfl rfl fun hne => absurd hc hne
  exact h₁.keeps (.setTask fun hne => absurd hc hne)

theorem Registered.killUserFault (h : Registered pc n k) (hc : pc k.current = .out) (intNo : ℕ) :
    Registered pc n (k.killUserFault intNo) := by
  have hset : Keeps pc k (k.setTask k.current { k.tasks k.current with
      signal := faultSignal intNo, state := .killed }) := .setTask fun hne => absurd hc hne
  exact (h.keeps hset).exit hc 128

section

variable [PageAlloc H]

theorem keeps_destroy (hi : pc i ≠ .out → (k.tasks i).state ≠ .blocked) :
    Keeps pc k (k.destroy i) := by
  rw [destroy]
  split
  · exact .refl k
  · refine (Keeps.setMmu k _).trans (.setTask fun hout => ⟨?_, rfl, rfl, fun hb => ?_⟩)
    · exact iff_of_false TaskState.noConfusion (hi hout)
    · exact absurd hb (hi hout)

/-- **`reap`.** -/
theorem Registered.reap (h : Registered pc n k) (hr : k.reap = some k') : Registered pc n k' := by
  have hslot : ∀ (k : Kernel H), Registered pc n k → ∀ i, Registered pc n (k.reapSlot i) := by
    intro k hk i
    have hb : Registered pc n (if (k.tasks i).state = .killed then k.bury i else k) := by
      split
      · next hkill =>
        exact hk.dies (t :=
          { k.tasks i with exitCode := 128 + (k.tasks i).signal, state := .zombie })
          rfl rfl rfl fun _ => by rw [hkill]; exact TaskState.noConfusion
      · exact hk
    rw [Kernel.reapSlot]
    generalize (if (k.tasks i).state = .killed then k.bury i else k) = k₁ at hb ⊢
    split
    · exact hb
    · next hne =>
      refine hb.keeps (keeps_destroy fun _ => ?_)
      rw [not_not.mp (not_or.mp hne).1]
      exact TaskState.noConfusion
  rw [Kernel.reap] at hr
  split at hr
  · cases hr
  · rw [← Option.some.inj hr]
    exact Registered.foldl hslot h _

end

/-! ## Signals, ticks and keys -/

/-- No parked task has the number. -/
def Spares (pc : Fin kMaxTask → Pc) (k : Kernel H) (pid : ℕ) : Prop :=
  ∀ i, pc i ≠ .out → (k.tasks i).state = .blocked → (k.tasks i).pid ≠ pid

/-- Whom the interrupt key is for. -/
def target (k : Kernel H) (owner : ℕ) : ℕ := if owner ≠ 0 then owner else (k.tasks k.current).pid

theorem Spares.keeps {pid : ℕ} (h : Spares pc k pid) (hk : Keeps pc k k')
    (hp : ∀ i, (k'.tasks i).pid = (k.tasks i).pid) : Spares pc k' pid := by
  intro i hi hb
  rw [hp]
  exact h i hi ((hk.blocked i hi).mp hb)

/-- **`signal_task`**, of somebody who is not parked. -/
theorem keeps_signalTask {pid : ℕ} (h : Spares pc k pid) (sig : UInt32) :
    Keeps pc k (k.signalTask pid sig).2 := by
  rw [signalTask]
  split
  · exact .refl k
  · next i hi =>
    have hnot : pc i ≠ .out → (k.tasks i).state ≠ .blocked :=
      fun hout hb => h i hout hb (find_eq_some hi).2
    dsimp only
    split
    · exact .refl k
    · split
      · have hset : Keeps pc k (k.setTask i { k.tasks i with sigPending := sig }) :=
          .setTask fun hout => ⟨Iff.rfl, rfl, rfl, fun hb => absurd hb (hnot hout)⟩
        split
        · refine hset.trans (keeps_unblock fun hout hb => ?_)
          exact hnot hout ((hset.blocked i hout).mp hb)
        · exact hset
      · refine .setTask fun hout => ⟨?_, rfl, rfl, fun _ => rfl⟩
        exact iff_of_false TaskState.noConfusion (hnot hout)

/-- **`kill`.** -/
theorem Registered.kill (h : Registered pc n k) {pid : ℕ} (hp : Spares pc k pid)
    (hc : pc k.current = .out) (sig : UInt32) : Registered pc n (k.kill pid sig).2 := by
  have hs := h.keeps (keeps_signalTask hp sig)
  have hcur := (calm_signalTask k pid sig).current
  rw [Kernel.kill]
  generalize k.signalTask pid sig = r at hs hcur ⊢
  obtain ⟨ok, k₁⟩ := r
  dsimp only at hs hcur ⊢
  split
  · exact hs
  · split
    · exact hs.exit (by rw [hcur]; exact hc) (128 + sig)
    · exact hs

/-- **`tty_drain`**, up to the wakeups. -/
theorem keeps_keys {owner : ℕ} {sigs : Bool} {keys : List UInt8}
    (h : 3 ∈ keys → sigs = true → Spares pc k (k.target owner)) :
    Keeps pc k (keys.foldl (ttyInput owner sigs) k) := by
  induction keys generalizing k with
  | nil => exact .refl k
  | cons c keys ih =>
    have hone : Keeps pc k (ttyInput owner sigs k c) := by
      rw [ttyInput]
      split
      · next hc =>
        have hp := h (hc.1 ▸ List.mem_cons_self) hc.2
        dsimp only
        rw [← target]
        split
        · exact keeps_signalTask hp kSigInt
        · exact .refl k
      · exact .refl k
    have hcalm := calm_ttyInput owner sigs k c
    refine hone.trans (ih fun hc hs => ?_)
    have ht : (ttyInput owner sigs k c).target owner = k.target owner := by
      rw [target, target, hcalm.current, hcalm.pid]
    rw [ht]
    exact (h (List.mem_cons_of_mem c hc) hs).keeps hone hcalm.pid

/-- **`kbd::wake`**, of nobody who is parked. -/
theorem keeps_kbdWake {wait : List (Fin kMaxTask)}
    (h : ∀ i ∈ wait, pc i ≠ .out → (k.tasks i).state ≠ .blocked) : Keeps pc k (k.kbdWake wait) := by
  refine Keeps.foldl (P := fun k => ∀ i ∈ wait, pc i ≠ .out → (k.tasks i).state ≠ .blocked)
    (fun k₁ k₂ h₁ hk i hi hout hb => ?_) (fun k₁ h₁ i hi => keeps_unblock (h₁ i hi)) h
  exact h₁ i hi hout ((hk.blocked i hout).mp hb)

/-- The loop of **`on_tick`**, when none of those who are parked has a signal. -/
theorem keeps_tickAll (now : ℕ) (hq : ∀ i, pc i ≠ .out → (k.tasks i).sleepUntil = 0)
    (hs : ∀ i, pc i ≠ .out → (k.tasks i).state = .blocked → (k.tasks i).sigPending = 0)
    (l : List (Fin kMaxTask)) : Keeps pc k (l.foldl (tickSlot now) k) := by
  refine Keeps.foldl (P := fun k => ∀ i, pc i ≠ .out → (k.tasks i).sleepUntil = 0 ∧
    ((k.tasks i).state = .blocked → (k.tasks i).sigPending = 0)) (fun k₁ k₂ h₁ hk i hi => ?_)
    (fun k₁ h₁ i _ => ?_) fun i hi => ⟨hq i hi, hs i hi⟩
  · refine ⟨(hk.quiet i hi).2.trans (h₁ i hi).1, fun hb => ?_⟩
    have hb' := (hk.blocked i hi).mp hb
    exact (hk.sig i hi hb').trans ((h₁ i hi).2 hb')
  · rw [tickSlot]
    split
    · next hc =>
      have hset : Keeps pc k₁ (k₁.setTask i { k₁.tasks i with sleepUntil := 0 }) :=
        .setTask fun hout => absurd (h₁ i hout).1 hc.2.1
      exact hset.trans (keeps_unblock fun hout => absurd (h₁ i hout).1 hc.2.1)
    · split
      · next hc => exact keeps_unblock fun hout hb => hc.2.1 ((h₁ i hout).2 hb)
      · exact .refl k₁

/-! ## Who runs -/

/-- **`switch_to`** somebody who is not parked. -/
theorem keeps_switchTo (hi : (k.tasks i).state ≠ .blocked) : Keeps pc k (k.switchTo i) := by
  set k₁ := if (k.tasks k.current).state = .running then
    k.setTask k.current { k.tasks k.current with state := .ready } else k with hk₁
  set t : Task := { k₁.tasks i with state := .running, quantum := kQuantum } with ht
  set t' := if !t.inSyscall && t.regs.fromUser then delivered t else t with ht'
  have he : k.switchTo i
      = { (k₁.setMmu (k₁.mmu.spaceSwitch t'.sp)).setTask i t' with current := i } := rfl
  have h₁ : Keeps pc k k₁ := by
    rw [hk₁]
    split
    · next hr =>
      have hnot : (k.tasks k.current).state ≠ .blocked := by
        rw [hr]
        exact TaskState.noConfusion
      refine .setTask fun _ => ⟨iff_of_false TaskState.noConfusion hnot, rfl, rfl, fun _ => rfl⟩
    · exact .refl k
  have hdel : t'.state = .running ∧ t'.waiting = (k₁.tasks i).waiting ∧
      t'.sleepUntil = (k₁.tasks i).sleepUntil := by
    rw [ht']
    split
    · obtain ⟨r, pending, mask, saved, active, hd⟩ := delivered_eq t
      rw [hd]
      exact ⟨rfl, rfl, rfl⟩
    · exact ⟨rfl, rfl, rfl⟩
  have h₂ : Keeps pc k₁ ((k₁.setMmu (k₁.mmu.spaceSwitch t'.sp)).setTask i t') := by
    refine (Keeps.setMmu k₁ _).trans (.setTask fun hout => ?_)
    have hnot : (k₁.tasks i).state ≠ .blocked := fun hb => hi ((h₁.blocked i hout).mp hb)
    refine ⟨?_, hdel.2.1, hdel.2.2, fun hb => absurd hb hnot⟩
    rw [hdel.1]
    exact iff_of_false TaskState.noConfusion hnot
  obtain ⟨g₁, g₂, g₃, g₄, g₅⟩ := h₁.trans h₂
  rw [he]
  exact ⟨g₁, g₂, g₃, g₄, g₅⟩

/-- A task that is not parked leaves its call. -/
theorem Registered.leave (h : Registered pc n k) (hb : (k.tasks i).state ≠ .blocked) :
    Registered (Function.update pc i .out) n k := by
  have hat : ∀ d a j, (Function.update pc i .out j).At a d → (pc j).At a d := by
    intro d a j hj
    rw [Function.update_apply] at hj
    split at hj
    · exact absurd rfl hj.ne_out
    · exact hj
  refine ⟨fun d a j => ?_, fun d a j hj => h.why d a j (hat d a j hj), fun j hj => ?_⟩
  · rw [h.place]
    refine ⟨fun hj => ⟨?_, hj.2⟩, fun hj => ⟨hat d a j hj.1, hj.2⟩⟩
    have hne : j ≠ i := fun he => hb (he ▸ hj.2)
    rw [Function.update_of_ne hne]
    exact hj.1
  · rw [Function.update_apply] at hj
    split at hj
    · exact absurd rfl hj
    · exact h.quiet j hj

/-- A free slot is filled, or left with rubbish. -/
theorem Registered.spawn (h : Registered pc n k) {t : Task} {m : Mmu H} {pipes : ℕ → Pipe}
    (hout : pc i = .out) (hp : pipes = k.pipes ∨ ∃ fd, pipes = fdShareAll k.pipes fd) :
    Registered pc n (((k.setMmu m).setTask i t).setPipes pipes) := by
  have hset : Keeps pc k ((k.setMmu m).setTask i t) :=
    (Keeps.setMmu k m).trans (.setTask fun hne => absurd hout hne)
  refine h.keeps (hset.trans ?_)
  rcases hp with rfl | ⟨fd, rfl⟩
  · exact .setPipes (fun _ _ => rfl) fun _ _ => id
  · exact .setPipes (fun a d => (fdShareAll_place k.pipes fd a d).1)
      fun a d => (fdShareAll_place k.pipes fd a d).2

/-! ## Parking and moving bytes -/

/-- Somebody is recorded on a side, or nobody. -/
def setSide : Bool → Option (Fin kMaxTask) → Pipe → Pipe
  | false => setRdWait
  | true => setWrWait

theorem setSide_place (d e : Bool) (o : Option (Fin kMaxTask)) (p : Pipe) :
    (setSide d o p).place e = if e = d then o else p.place e := by
  cases d <;> cases e <;> rfl

theorem setSide_far (d e : Bool) (o : Option (Fin kMaxTask)) (p : Pipe) :
    (setSide d o p).far e = p.far e := by
  cases d <;> cases e <;> rfl

/-- **Parking**, when nobody is there yet. -/
theorem Registered.park (h : Registered pc n k) {c : Pc} {t : Task} (hat : c.At a d)
    (ho : (k.pipes a).place d = none) (hn : n a = waitsAt d) (hf : (k.pipes a).far d ≠ 0)
    (hb : (k.tasks k.current).state ≠ .blocked) (ht : t.state = .blocked)
    (hq : t.waiting = false ∧ t.sleepUntil = 0) :
    Registered (Function.update pc k.current c) n
      ((k.setPipe a (setSide d (some k.current) (k.pipes a))).setTask k.current t) := by
  set k' := (k.setPipe a (setSide d (some k.current) (k.pipes a))).setTask k.current t with hk'
  have hpipe : ∀ b e, (k'.pipes b).place e
      = if b = a ∧ e = d then some k.current else (k.pipes b).place e := by
    intro b e
    change ((k.setPipe a (setSide d (some k.current) (k.pipes a))).pipes b).place e = _
    rw [setPipe_pipes]
    by_cases hba : b = a
    · rw [if_pos hba, setSide_place, hba]
      simp only [true_and]
    · rw [if_neg hba, if_neg fun he => hba he.1]
  have hfar : ∀ b e, (k'.pipes b).far e = (k.pipes b).far e := by
    intro b e
    change ((k.setPipe a (setSide d (some k.current) (k.pipes a))).pipes b).far e = _
    rw [setPipe_pipes]
    split
    · next hba => rw [setSide_far, hba]
    · rfl
  have htask : ∀ j, k'.tasks j = if j = k.current then t else k.tasks j := fun j => by
    rw [hk', setTask_tasks, Function.update_apply]
    rfl
  have hpc : ∀ j, Function.update pc k.current c j = if j = k.current then c else pc j :=
    fun j => Function.update_apply _ _ _ _
  refine ⟨fun e b j => ?_, fun e b j hj hbj => ?_, fun j hj => ?_⟩
  · rw [hpipe, htask, hpc]
    by_cases hj : j = k.current
    · rw [if_pos hj, if_pos hj, hj]
      refine Iff.trans ?_ (and_iff_left ht).symm
      split
      · next he =>
        obtain ⟨rfl, rfl⟩ := he
        exact iff_of_true rfl hat
      · next he =>
        refine iff_of_false (fun hs => hb ((h.place e b _).mp hs).2) fun hc => he (hc.unique hat)
    · rw [if_neg hj, if_neg hj]
      split
      · next he =>
        obtain ⟨rfl, rfl⟩ := he
        refine iff_of_false (fun hs => hj (Option.some.inj hs).symm) fun hs => ?_
        exact h.nobody ho hs.1 hs.2
      · exact h.place e b j
  · rw [hpc] at hj
    rw [htask] at hbj
    rw [hfar]
    split at hj
    · obtain ⟨rfl, rfl⟩ := hj.unique hat
      exact ⟨hn, hf⟩
    · next hne =>
      rw [if_neg hne] at hbj
      exact h.why e b j hj hbj
  · rw [hpc] at hj
    rw [htask]
    split
    · exact hq
    · next hne =>
      rw [if_neg hne] at hj
      exact h.quiet j hj

/-- Where nobody is parked the number of bytes is free to change. -/
theorem Registered.level (h : Registered pc n k) {n' : ℕ → ℕ}
    (ho : ∀ d, (k.pipes a).place d = none) (hn : ∀ b, b ≠ a → n' b = n b) : Registered pc n' k := by
  refine ⟨h.place, fun d b i hat hb => ?_, h.quiet⟩
  have hne : b ≠ a := by
    rintro rfl
    exact h.nobody (ho d) hat hb
  rw [hn b hne]
  exact h.why d b i hat hb

/-- Where there is something to do nobody is recorded. -/
theorem Registered.idle (h : Registered pc n k) (hn : n a ≠ waitsAt d) :
    (k.pipes a).place d = none := by
  cases ho : (k.pipes a).place d with
  | none => rfl
  | some i =>
    obtain ⟨hat, hb⟩ := (h.place d a i).mp ho
    exact absurd (h.why d a i hat hb).1 hn

/-- The two wakeups of the calls. -/
def wakeSide (k : Kernel H) (a : ℕ) : Bool → Kernel H
  | false => k.wakeRd a
  | true => k.wakeWr a

/-- **A wakeup by a call.** Nobody is recorded on that side any more. -/
theorem Registered.wakeSide (h : Registered pc n k) (a : ℕ) (d : Bool) :
    Registered pc n (k.wakeSide a d) ∧ ((k.wakeSide a d).pipes a).place d = none ∧
      ((k.wakeSide a d).pipes a).place (!d) = (k.pipes a).place (!d) := by
  have hw := h.wake (a := a) d (setSide d none (k.pipes a)) (by rw [setSide_place, if_pos rfl])
    (by cases d <;> rfl) (by rw [setSide_far]; exact id)
  have hpipe : ∀ k₁ : Kernel H, (k₁.setPipe a (setSide d none (k.pipes a))).pipes a
      = setSide d none (k.pipes a) := fun k₁ => setPipe_self k₁ a _
  have heq : k.wakeSide a d = if (k.pipes a).place d = none then k else
      (((k.pipes a).place d).elim k k.unblock).setPipe a (setSide d none (k.pipes a)) := by
    cases d with
    | false =>
      rw [Kernel.wakeSide, wakeRd]
      cases hp : (k.pipes a).rdWait with
      | none => exact (if_pos hp).symm
      | some j =>
        have hne : ¬(k.pipes a).place false = none := by
          change ¬(k.pipes a).rdWait = none
          rw [hp]
          exact Option.some_ne_none j
        rw [if_neg hne]
        change _ = ((k.pipes a).rdWait.elim k k.unblock).setPipe a _
        rw [hp]
        rfl
    | true =>
      rw [Kernel.wakeSide, wakeWr]
      cases hp : (k.pipes a).wrWait with
      | none => exact (if_pos hp).symm
      | some j =>
        have hne : ¬(k.pipes a).place true = none := by
          change ¬(k.pipes a).wrWait = none
          rw [hp]
          exact Option.some_ne_none j
        rw [if_neg hne]
        change _ = ((k.pipes a).wrWait.elim k k.unblock).setPipe a _
        rw [hp]
        rfl
  rw [heq]
  split
  · next ho => exact ⟨h, ho, rfl⟩
  · rw [hpipe, setSide_place, if_pos rfl]
    refine ⟨hw, rfl, ?_⟩
    cases d <;> rfl

/-! ## A task that was chosen -/

/-- Nothing parks. -/
def NoPark (k k' : Kernel H) : Prop :=
  ∀ i, (k'.tasks i).state = .blocked → (k.tasks i).state = .blocked

theorem Wakes.noPark (h : Wakes k k') : NoPark k k' := by
  intro i hb
  rcases h.state i with he | ⟨he, -⟩
  · rwa [← he]
  · exact he

theorem Dies.noPark (h : Dies k i k') : NoPark k k' := by
  intro j hb
  by_cases hj : j = i
  · rw [hj, h.self] at hb
    cases hb
  · rcases h.other hj with he | ⟨he, -⟩
    · rwa [← he]
    · exact he

theorem NoPark.setTask {t : Task} (ht : t.state = .blocked → (k.tasks i).state = .blocked) :
    NoPark k (k.setTask i t) := by
  intro j hb
  rw [setTask_tasks, Function.update_apply] at hb
  split at hb
  · next hj =>
    rw [hj]
    exact ht hb
  · exact hb

theorem NoPark.foldl {β : Type} {f : Kernel H → β → Kernel H} (hf : ∀ k b, NoPark k (f k b))
    (k : Kernel H) (l : List β) : NoPark k (l.foldl f k) := by
  induction l generalizing k with
  | nil => exact fun _ => id
  | cons b l ih => exact fun i hi => hf k b i (ih _ i hi)

theorem noPark_ttyInput (owner : ℕ) (sigs : Bool) (k : Kernel H) (c : UInt8) :
    NoPark k (ttyInput owner sigs k c) := by
  rw [ttyInput]
  split
  · dsimp only
    generalize (if owner ≠ 0 then owner else (k.tasks k.current).pid) = pid
    split
    · rw [signalTask]
      split
      · exact fun _ => id
      · next i _ =>
        dsimp only
        split
        · exact fun _ => id
        · split
          · have hset : NoPark k (k.setTask i { k.tasks i with sigPending := kSigInt }) :=
              .setTask id
            split
            · exact fun j hj => hset j ((wakes_unblock _ i).noPark j hj)
            · exact hset
          · exact .setTask TaskState.noConfusion
    · exact fun _ => id
  · exact fun _ => id

theorem noPark_reap [PageAlloc H] (hr : k.reap = some k') : NoPark k k' := by
  have hslot : ∀ (k : Kernel H) i, NoPark k (k.reapSlot i) := by
    intro k i
    have hb : NoPark k (if (k.tasks i).state = .killed then k.bury i else k) := by
      split
      · exact (dies_bury k i).noPark
      · exact fun _ => id
    rw [reapSlot]
    generalize (if (k.tasks i).state = .killed then k.bury i else k) = k₁ at hb ⊢
    split
    · exact hb
    · rw [destroy]
      split
      · exact hb
      · intro j hj
        rw [setTask_tasks, Function.update_apply] at hj
        split at hj
        · cases hj
        · exact hb j hj
  rw [reap] at hr
  split at hr
  · cases hr
  · rw [← Option.some.inj hr]
    exact .foldl hslot k _

end Kernel

/-! ## One step -/

namespace PipeMachine

open Kernel

variable {H : Type} {σ σ' : PipeMachine H} {h h' : History} {a len : ℕ} {o : Outcome}
  {l : List UInt8}

/-- The places of all pipes are right. -/
def Reg (σ : PipeMachine H) : Prop := Registered σ.pc (fun a => (σ.ring a).n) σ.w.k

/-- A task is parked at a pipe. -/
def Parked (σ : PipeMachine H) (i : Fin kMaxTask) : Prop :=
  σ.pc i ≠ .out ∧ (σ.w.k.tasks i).state = .blocked

/-- The task that runs can park at a pipe. -/
structure Runs (k : Kernel H) : Prop where
  state : (k.tasks k.current).state ≠ .blocked
  quiet : (k.tasks k.current).waiting = false ∧ (k.tasks k.current).sleepUntil = 0

theorem setSide_setSide (d : Bool) (o o' : Option (Fin kMaxTask)) (p : Pipe) :
    setSide d o (setSide d o' p) = setSide d o p := by
  cases d <;> rfl

theorem Reg.park {d : Bool} {c : Pc} {k : Kernel H} (hσ : σ.Reg) (hr : Runs σ.w.k) (hat : c.At a d)
    (ho : (σ.w.k.pipes a).place d = none) (hn : (σ.ring a).n = waitsAt d)
    (hf : (σ.w.k.pipes a).far d ≠ 0) (hk : σ.w.k.parkOn a (setSide d) = some k) :
    ((σ.setKernel k).setPc σ.current c).Reg := by
  rw [parkOn_eq a (setSide_setSide d) hr.state] at hk
  obtain rfl := Option.some.inj hk
  exact Registered.park hσ hat ho hn hf hr.state rfl hr.quiet

/-- Nobody is recorded on a side after a wakeup, and the task that runs still does. -/
theorem Runs.wakeSide {k : Kernel H} (h : Runs k) (a : ℕ) (d : Bool) : Runs (k.wakeSide a d) := by
  have hunblock : ∀ j p, Runs ((k.unblock j).setPipe a p) := by
    intro j p
    have hcur : (k.unblock j).current = k.current := (wakes_unblock k j).current
    refine ⟨fun hb => h.state ?_, ?_⟩
    · exact (wakes_unblock k j).noPark k.current (hcur ▸ hb)
    · rw [setPipe_current, setPipe_tasks, hcur, (unblock_quiet k j k.current).1,
        (unblock_quiet k j k.current).2]
      exact h.quiet
  cases d with
  | false =>
    change Runs (k.wakeRd a)
    rw [wakeRd]
    split
    · exact h
    · exact hunblock _ _
  | true =>
    change Runs (k.wakeWr a)
    rw [wakeWr]
    split
    · exact h
    · exact hunblock _ _

/-- **`pipe_rd`** parks where nobody is, or wakes the writer. -/
theorem Reg.pipeRd (hσ : σ.Reg) (hr : Runs σ.w.k)
    (ho : (σ.ring a).n = 0 → (σ.w.k.pipes a).writers ≠ 0 → (σ.w.k.pipes a).rdWait = none)
    (hrd : σ.pipeRd a len = some (o, l, σ')) : σ'.Reg := by
  rw [PipeMachine.pipeRd] at hrd
  split at hrd
  · next hc =>
    obtain ⟨k, hk, he⟩ := Option.map_eq_some_iff.mp hrd
    obtain ⟨rfl, -, rfl⟩ : _ ∧ _ ∧ _ := by simpa using he
    exact hσ.park (d := false) hr ⟨len, rfl⟩ (ho hc.1 hc.2) hc.1 hc.2 hk
  · have hleave : (σ.setPc σ.current .out).Reg := Registered.leave hσ hr.state
    split at hrd
    · obtain ⟨rfl, -, rfl⟩ : _ ∧ _ ∧ _ := by simpa using hrd
      exact hleave
    · next hn =>
      obtain ⟨rfl, rfl, rfl⟩ : _ ∧ _ ∧ _ := by simpa using hrd
      obtain ⟨h₁, h₂, h₃⟩ := Registered.wakeSide hleave a true
      -- There are bytes, so that no reader is recorded either.
      have hrest : ((σ.w.k.wakeSide a true).pipes a).place false = none :=
        h₃.trans (Registered.idle hσ hn)
      refine Registered.level h₁ (Bool.forall_bool.mpr ⟨hrest, h₂⟩) fun b hb => ?_
      exact congrArg Ring.n (Function.update_of_ne hb _ _)

/-- **`pipe_wr`** parks where nobody is, and wakes the reader for each byte. -/
theorem Reg.pipeWr {rest : List UInt8} {put : ℕ} (hσ : σ.Reg) (hr : Runs σ.w.k)
    (ho : rest ≠ [] → (σ.ring a).n = kPipeBytes → (σ.w.k.pipes a).readers ≠ 0 →
      (σ.w.k.pipes a).wrWait = none)
    (hwr : σ.pipeWr a rest put = some (o, l, σ')) : σ'.Reg := by
  induction rest generalizing σ put l with
  | nil =>
    obtain ⟨rfl, -, rfl⟩ : _ ∧ _ ∧ _ := by simpa [PipeMachine.pipeWr] using hwr
    exact Registered.leave hσ hr.state
  | cons c rest ih =>
    rw [PipeMachine.pipeWr] at hwr
    split at hwr
    · next hc =>
      obtain ⟨k, hk, he⟩ := Option.map_eq_some_iff.mp hwr
      obtain ⟨rfl, -, rfl⟩ : _ ∧ _ ∧ _ := by simpa using he
      exact hσ.park (d := true) hr ⟨c :: rest, put, rfl⟩ (ho (List.cons_ne_nil c rest) hc.1 hc.2)
        hc.1 hc.2 hk
    · split at hwr
      · obtain ⟨rfl, -, rfl⟩ : _ ∧ _ ∧ _ := by simpa using hwr
        exact Registered.leave hσ hr.state
      · next hn =>
        obtain ⟨⟨o', l', σ₂⟩, hrec, he⟩ := Option.map_eq_some_iff.mp hwr
        obtain ⟨rfl, rfl, rfl⟩ : _ ∧ _ ∧ _ := by simpa using he
        obtain ⟨h₁, h₂, h₃⟩ := Registered.wakeSide hσ a false
        have hrest : ((σ.w.k.wakeSide a false).pipes a).place true = none :=
          h₃.trans (Registered.idle hσ hn)
        refine ih (σ := (σ.setRing a ((σ.ring a).put kPipeBytes c)).setKernel (σ.w.k.wakeRd a)) ?_
          (hr.wakeSide a false) (fun _ _ _ => hrest) hrec
        refine Registered.level h₁ (Bool.forall_bool.mpr ⟨h₂, hrest⟩) fun b hb => ?_
        exact congrArg Ring.n (Function.update_of_ne hb _ _)

/-- Coming back from `block_on`, to a place that is empty, changes nothing for others. -/
theorem Reg.unpark {d : Bool} (hσ : σ.Reg) (hc : σ.pc σ.current ≠ .out)
    (hb : (σ.w.k.tasks σ.current).state ≠ .blocked) (ho : (σ.w.k.pipes a).place d = none) :
    (σ.setKernel (σ.w.k.unpark a (setSide d))).Reg ∧ Runs (σ.w.k.unpark a (setSide d)) ∧
      ((σ.w.k.unpark a (setSide d)).pipes a).place d = none := by
  have hk : Keeps σ.pc σ.w.k (σ.w.k.unpark a (setSide d)) := by
    have hset : Keeps σ.pc σ.w.k (σ.w.k.setTask σ.current { σ.w.k.tasks σ.current with
        wakePending := false }) := .setTask fun _ => ⟨Iff.rfl, rfl, rfl, fun _ => rfl⟩
    refine hset.trans (.setPipes (fun b e => ?_) fun b e => ?_)
    · change (Function.update σ.w.k.pipes a (setSide d none (σ.w.k.pipes a)) b).place e
        = (σ.w.k.pipes b).place e
      rw [Function.update_apply]
      split
      · next hba =>
        rw [setSide_place, hba]
        split
        · next he => rw [he, ho]
        · rfl
      · rfl
    · change (σ.w.k.pipes b).far e ≠ 0 →
        (Function.update σ.w.k.pipes a (setSide d none (σ.w.k.pipes a)) b).far e ≠ 0
      rw [Function.update_apply]
      split
      · next hba =>
        rw [setSide_far, hba]
        exact id
      · exact id
  have hreg : Registered σ.pc (fun a => (σ.ring a).n) (σ.w.k.unpark a (setSide d)) :=
    Registered.keeps hσ hk
  refine ⟨hreg, ⟨fun hb' => hb ((hk.blocked σ.current hc).mp hb'), hreg.quiet σ.current hc⟩, ?_⟩
  rw [hk.place, ho]

/-- What must not happen: that two tasks use a place, and that a task that is parked is made to move
by somebody else. -/
def Undisturbed (σ : PipeMachine H) : PipeOp H → Prop
  | .read a _ => (σ.ring a).n = 0 → (σ.w.k.pipes a).writers ≠ 0 → (σ.w.k.pipes a).rdWait = none
  | .write a s => s ≠ [] → (σ.ring a).n = kPipeBytes → (σ.w.k.pipes a).readers ≠ 0 →
      (σ.w.k.pipes a).wrWait = none
  | .resume =>
    match σ.pc σ.current with
    | .out => True
    | .rd a _ => (σ.w.k.pipes a).rdWait = none
    | .wr a _ _ => (σ.w.k.pipes a).wrWait = none
  | .pipe => ∀ p, σ.w.k.freePipe = some p → (σ.w.k.pipes (pipeAddr p)).rdWait = none ∧
      (σ.w.k.pipes (pipeAddr p)).wrWait = none
  | .plain (.unblock i) | .plain (.destroy i) => ¬σ.Parked i
  | .plain (.kill pid _) => Spares σ.pc σ.w.k pid
  | .plain (.tick keys serial) => (∀ i, σ.Parked i → (σ.w.k.tasks i).sigPending = 0) ∧
      (3 ∈ keys → σ.w.sigs = true → Spares σ.pc σ.w.k (σ.w.k.target σ.w.owner)) ∧
      (keys ≠ [] ∨ serial = true → ∀ i ∈ σ.w.kbdWait, ¬σ.Parked i)
  | .plain .key => ∀ i ∈ σ.w.kbdWait, ¬σ.Parked i
  | .plain (.drain keys) =>
      (3 ∈ keys → σ.w.sigs = true → Spares σ.pc σ.w.k (σ.w.k.target σ.w.owner)) ∧
      (keys ≠ [] → ∀ i ∈ σ.w.kbdWait, ¬σ.Parked i)
  | _ => True

/-- The places are right, and whoever is about to run is not parked. -/
structure Waiters (σ : PipeMachine H) : Prop where
  /-- The places are right. -/
  reg : σ.Reg
  /-- Who was chosen to run is not parked. -/
  pending : ∀ i, σ.w.pending = some i → (σ.w.k.tasks i).state ≠ .blocked

/-- A change of the kernel between the choice of a task and the switch to it. -/
theorem Waiters.of_noPark {w : Machine H} (hσ : σ.Waiters)
    (hr : Registered σ.pc (fun a => (σ.ring a).n) w.k) (hn : NoPark σ.w.k w.k)
    (hp : w.pending = σ.w.pending ∨ w.pending = none) :
    Waiters { σ with w := w } := by
  refine ⟨hr, fun i hi hb => ?_⟩
  rcases hp with hp | hp
  · exact hσ.pending i (hp ▸ hi) (hn i hb)
  · change w.pending = some i at hi
    rw [hp] at hi
    cases hi

/-- **`tty_drain`.** -/
theorem keeps_ttyDrain {pc : Fin kMaxTask → Pc} (w : Machine H) {keys : List UInt8}
    (hk : 3 ∈ keys → w.sigs = true → Spares pc w.k (w.k.target w.owner))
    (hw : keys ≠ [] → ∀ i ∈ w.kbdWait, pc i ≠ .out → (w.k.tasks i).state ≠ .blocked) :
    Keeps pc w.k (w.ttyDrain keys).k := by
  rw [Machine.ttyDrain]
  split
  · exact .refl w.k
  · next hne =>
    have h₁ : Keeps pc w.k (keys.foldl (ttyInput w.owner w.sigs) w.k) := keeps_keys hk
    refine h₁.trans (keeps_kbdWake fun i hi hout hb => ?_)
    exact hw hne i hi hout ((h₁.blocked i hout).mp hb)

theorem noPark_ttyDrain (w : Machine H) (keys : List UInt8) : NoPark w.k (w.ttyDrain keys).k := by
  rw [Machine.ttyDrain]
  split
  · exact fun _ => id
  · intro i hi
    exact NoPark.foldl (noPark_ttyInput w.owner w.sigs) w.k keys i
      ((wakes_kbdWake _ _).noPark i hi)

/-- The first half of `on_tick` touches the tasks only. -/
theorem ticked_devices (w : Machine H) : w.ticked.owner = w.owner ∧ w.ticked.sigs = w.sigs ∧
    w.ticked.kbdWait = w.kbdWait ∧ w.ticked.pending = w.pending := by
  rw [Machine.ticked]
  generalize (List.finRange kMaxTask).foldl (tickSlot (w.ticks + 1)) w.k = k
  exact ⟨rfl, rfl, rfl, rfl⟩

theorem keeps_ticked {pc : Fin kMaxTask → Pc} (w : Machine H)
    (hq : ∀ i, pc i ≠ .out → (w.k.tasks i).sleepUntil = 0)
    (hs : ∀ i, pc i ≠ .out → (w.k.tasks i).state = .blocked → (w.k.tasks i).sigPending = 0) :
    Keeps pc w.k w.ticked.k := by
  have he : w.ticked.k = (List.finRange kMaxTask).foldl (tickSlot (w.ticks + 1)) w.k := by
    rw [Machine.ticked]
  rw [he]
  generalize List.finRange kMaxTask = l
  exact keeps_tickAll (w.ticks + 1) hq hs l

/-- **`on_tick`.** -/
theorem Waiters.tick (hσ : σ.Waiters) {keys : List UInt8} {serial : Bool}
    (hs : σ.Undisturbed (.plain (.tick keys serial))) :
    Waiters { σ with w := σ.w.onTick keys serial } := by
  obtain ⟨hsig, hkeys, hwait⟩ := hs
  have h₁ := keeps_ticked σ.w (fun i hi => (hσ.reg.quiet i hi).2) fun i hi hb => hsig i ⟨hi, hb⟩
  have hw₁ := Machine.wakes_ticked σ.w
  obtain ⟨howner, hsigs, hkbd, hpend₁⟩ := ticked_devices σ.w
  rw [Machine.onTick]
  generalize σ.w.ticked = v at h₁ hw₁ howner hsigs hkbd hpend₁ ⊢
  have hfree : keys ≠ [] ∨ serial = true →
      ∀ i ∈ σ.w.kbdWait, σ.pc i ≠ .out → (v.k.tasks i).state ≠ .blocked :=
    fun hne i hi hout hb => hwait hne i hi ⟨hout, (h₁.blocked i hout).mp hb⟩
  have h₂ : Keeps σ.pc v.k (v.ttyDrain keys).k := by
    refine keeps_ttyDrain v (fun hc hs => ?_) fun hne => by
      rw [hkbd]
      exact hfree (Or.inl hne)
    have ht : v.k.target v.owner = σ.w.k.target σ.w.owner := by
      rw [target, target, hw₁.current, hw₁.pid, howner]
    rw [ht]
    exact (hkeys hc (hsigs ▸ hs)).keeps h₁ hw₁.pid
  have hpend : (v.ttyDrain keys).pending = σ.w.pending :=
    (Machine.calm_ttyDrain v keys).2.trans hpend₁
  have hn : NoPark σ.w.k (v.ttyDrain keys).k :=
    fun i hi => hw₁.noPark i (noPark_ttyDrain v keys i hi)
  -- What is left of the list of those who wait for a key is part of the list before.
  have hlist : (v.ttyDrain keys).kbdWait = [] ∨ (v.ttyDrain keys).kbdWait = σ.w.kbdWait := by
    rw [Machine.ttyDrain]
    split
    · exact Or.inr hkbd
    · exact Or.inl rfl
  generalize v.ttyDrain keys = w₂ at h₂ hpend hn hlist ⊢
  split
  · next hserial =>
    have h₃ : Keeps σ.pc w₂.k w₂.wake.k := by
      refine keeps_kbdWake fun i hi hout hb => ?_
      rcases hlist with hl | hl
      · rw [hl] at hi
        cases hi
      · exact hfree (Or.inr hserial) i (hl ▸ hi) hout ((h₂.blocked i hout).mp hb)
    exact hσ.of_noPark (Registered.keeps hσ.reg ((h₁.trans h₂).trans h₃))
      (fun i hi => hn i ((wakes_kbdWake _ _).noPark i hi)) (Or.inl hpend)
  · exact hσ.of_noPark (Registered.keeps hσ.reg (h₁.trans h₂)) hn (Or.inl hpend)

/-- **`pipe`.** -/
theorem Reg.makePipe (hσ : σ.Reg) (hs : σ.Undisturbed .pipe) (h : History) :
    (σ.makePipe h).1.Reg := by
  have hfile : ∀ {pc : Fin kMaxTask → Pc} (k : Kernel H) i fd f, Keeps pc k (k.setFile i fd f) :=
    fun k i fd f => .setTask fun _ => ⟨Iff.rfl, rfl, rfl, fun _ => rfl⟩
  rw [PipeMachine.makePipe, Kernel.pipe]
  cases hp : σ.w.k.freePipe with
  | none => exact hσ
  | some p =>
    obtain ⟨hrd, hwr⟩ := hs p hp
    have hplace : ∀ d, (σ.w.k.pipes (pipeAddr p)).place d = none :=
      Bool.forall_bool.mpr ⟨hrd, hwr⟩
    -- Nobody is parked at the pipe, so that it can be cleared.
    have h₁ : Registered σ.pc (fun a => (Function.update σ.ring (pipeAddr p) (.empty 0) a).n)
        (σ.w.k.setPipes (Function.update σ.w.k.pipes (pipeAddr p) ⟨1, 1, none, none, true⟩)) := by
      refine (Registered.level hσ hplace fun b hb => ?_).keeps
        (.setPipes (fun b d => ?_) fun b d => ?_)
      · exact congrArg Ring.n (Function.update_of_ne hb _ _)
      · rw [Function.update_apply]
        split
        · next hb =>
          rw [hb, hplace]
          cases d <;> rfl
        · rfl
      · rw [Function.update_apply]
        split
        · cases d <;> exact fun _ => Nat.one_ne_zero
        · exact id
    dsimp only [Option.elim_some]
    split
    · exact Registered.keeps h₁ ((hfile _ _ _ _).trans (hfile _ _ _ _))
    · exact h₁

/-- Calls on pipes have nothing to do with the choice of the next task. -/
theorem pipeRd_pending (hrd : σ.pipeRd a len = some (o, l, σ')) : σ'.w.pending = σ.w.pending := by
  rw [PipeMachine.pipeRd] at hrd
  split at hrd
  · obtain ⟨k, -, he⟩ := Option.map_eq_some_iff.mp hrd
    obtain ⟨-, -, rfl⟩ : _ ∧ _ ∧ _ := by simpa using he
    rfl
  · split at hrd
    · obtain ⟨-, -, rfl⟩ : _ ∧ _ ∧ _ := by simpa using hrd
      rfl
    · obtain ⟨-, -, rfl⟩ : _ ∧ _ ∧ _ := by simpa using hrd
      rfl

theorem pipeWr_pending {rest : List UInt8} {put : ℕ} (hwr : σ.pipeWr a rest put = some (o, l, σ')) :
    σ'.w.pending = σ.w.pending := by
  induction rest generalizing σ put l with
  | nil =>
    obtain ⟨-, -, rfl⟩ : _ ∧ _ ∧ _ := by simpa [PipeMachine.pipeWr] using hwr
    rfl
  | cons c rest ih =>
    rw [PipeMachine.pipeWr] at hwr
    split at hwr
    · obtain ⟨k, -, he⟩ := Option.map_eq_some_iff.mp hwr
      obtain ⟨-, -, rfl⟩ : _ ∧ _ ∧ _ := by simpa using he
      rfl
    · split at hwr
      · obtain ⟨-, -, rfl⟩ : _ ∧ _ ∧ _ := by simpa using hwr
        rfl
      · obtain ⟨⟨o', l', σ₂⟩, hrec, he⟩ := Option.map_eq_some_iff.mp hwr
        obtain ⟨rfl, -, rfl⟩ : _ ∧ _ ∧ _ := by simpa using he
        exact ih (σ := (σ.setRing a ((σ.ring a).put kPipeBytes c)).setKernel (σ.w.k.wakeRd a)) hrec

theorem Waiters.of_reg (hr : σ.Reg) (hp : σ.w.pending = none) : σ.Waiters := by
  refine ⟨hr, fun i hi => ?_⟩
  rw [hp] at hi
  cases hi

/-- The free slot that a new process gets is in no call. -/
def spawnPc (σ : PipeMachine H) : Fin kMaxTask → Pc :=
  σ.w.k.freeSlot.elim σ.pc fun slot => Function.update σ.pc slot .out

theorem Reg.spawnPc (hσ : σ.Reg) : Registered σ.spawnPc (fun a => (σ.ring a).n) σ.w.k := by
  rw [PipeMachine.spawnPc]
  cases hslot : σ.w.k.freeSlot with
  | none => exact hσ
  | some slot =>
    refine Registered.leave hσ ?_
    rw [(freeSlot_eq_some hslot).2]
    exact TaskState.noConfusion

theorem spawnPc_slot {slot : Fin kMaxTask} (hslot : σ.w.k.freeSlot = some slot) :
    σ.spawnPc slot = .out := by
  rw [spawnPc, hslot]
  exact Function.update_self _ _ _

variable [PageAlloc H]

theorem Reg.create (hσ : σ.Reg) (name : List UInt8) :
    Registered σ.spawnPc (fun a => (σ.ring a).n) (σ.w.k.create name).2 := by
  rcases create_spec σ.w.k name with he | ⟨slot, t, m, pipes, hslot, he, hp, -⟩
  · rw [he]
    exact hσ.spawnPc
  · rw [he]
    exact hσ.spawnPc.spawn (spawnPc_slot hslot) hp

theorem Reg.forkUser (hσ : σ.Reg) (frame : Registers) :
    Registered σ.spawnPc (fun a => (σ.ring a).n) (σ.w.k.forkUser frame).2 := by
  rcases forkUser_table σ.w.k frame with he | ⟨slot, t, m, pipes, hslot, he, hp, -⟩
  · rw [he]
    exact hσ.spawnPc
  · rw [he]
    have hpurge : Keeps σ.spawnPc σ.w.k (σ.w.k.purgeNotes (slot + 1)) :=
      ⟨fun _ _ => Iff.rfl, fun _ _ => ⟨rfl, rfl⟩, fun _ _ _ => rfl, fun _ _ => rfl, fun _ _ => id⟩
    exact (hσ.spawnPc.keeps hpurge).spawn (spawnPc_slot hslot) hp

omit [PageAlloc H] in
theorem Reg.block (hσ : σ.Reg) (hout : σ.pc σ.w.k.current = .out) :
    Registered σ.pc (fun a => (σ.ring a).n) σ.w.k.block.2 := by
  have hset : ∀ t, Registered σ.pc (fun a => (σ.ring a).n) (σ.w.k.setTask σ.w.k.current t) :=
    fun t => Registered.keeps hσ (.setTask fun hne => absurd hout hne)
  rw [Kernel.block]
  split
  · exact hσ
  · split
    · exact hset _
    · exact hset _

omit [PageAlloc H] in
theorem Reg.collect (hσ : σ.Reg) (hout : σ.pc σ.w.k.current = .out) (pid : ℕ) :
    Registered σ.pc (fun a => (σ.ring a).n) (σ.w.k.collect pid) := by
  rcases collect_spec σ.w.k pid with he | ⟨t, he, -⟩
  · rw [he]
    exact hσ
  · rw [he]
    exact Registered.keeps hσ (.setTask fun hne => absurd hout hne)

/-- The end of a time slice: the task that is chosen is ready, and so it is not parked. -/
theorem Waiters.preempt {r : Registers} {x : Bool × Kernel H} (hσ : σ.Waiters)
    (hpre : σ.w.k.preempt r = some x) : Waiters { σ with
      w := { σ.w with k := x.2, pending := if x.1 then none else σ.w.pending } } := by
  obtain ⟨b, k'⟩ := x
  obtain ⟨k₁, hslice, hrest⟩ := preempt_spec hpre
  have hw₁ := wakes_slice hslice
  have h₁ : Registered σ.pc (fun a => (σ.ring a).n) k₁ := by
    rcases hslice with rfl | ⟨q, r, s, rfl⟩
    · exact hσ.reg
    · exact Registered.keeps hσ.reg (.setTask fun _ => ⟨Iff.rfl, rfl, rfl, fun _ => rfl⟩)
  rcases hrest with ⟨rfl, rfl⟩ | ⟨k₂, hk₂, ⟨rfl, rfl⟩ | ⟨rfl, i, hi, -, rfl⟩⟩
  · exact hσ.of_noPark h₁ hw₁.noPark (Or.inl rfl)
  · exact hσ.of_noPark (h₁.reap hk₂) (fun i hi => hw₁.noPark i (noPark_reap hk₂ i hi)) (Or.inl rfl)
  · have hready := pick_ready hi
    refine .of_reg ((h₁.reap hk₂).keeps (keeps_switchTo ?_)) rfl
    rw [hready]
    exact TaskState.noConfusion

/-- **What has nothing to do with pipes.** -/
theorem Waiters.plain {op : Op H} {w : Machine H} (hσ : σ.Waiters) (ha : σ.Allowed (.plain op))
    (hs : σ.Undisturbed (.plain op)) (hst : σ.w.step op = some w) :
    Waiters { σ with w := w, pc := σ.freshPc op } := by
  have hreg := hσ.reg
  -- Most calls are made by a task that is in no call on a pipe.
  have hcall : ∀ {w : Machine H}, w.pending = none → Registered σ.pc (fun a => (σ.ring a).n) w.k →
      Waiters { σ with w := w } := fun hp hr => .of_reg hr hp
  obtain ⟨ha, hout⟩ := ha
  cases op with
  | create name =>
    obtain rfl := Option.some.inj hst
    exact .of_reg (Reg.create hreg name) ha
  | arm i =>
    obtain rfl := Option.some.inj hst
    exact hcall ha (Registered.keeps hreg (.setTask fun _ => ⟨Iff.rfl, rfl, rfl, fun _ => rfl⟩))
  | fork frame =>
    obtain rfl := Option.some.inj hst
    exact .of_reg (Reg.forkUser hreg frame) ha
  | destroy i =>
    obtain rfl := Option.some.inj hst
    exact hcall ha.1 (Registered.keeps hreg (keeps_destroy fun hi hb => hs ⟨hi, hb⟩))
  | becomeFirst =>
    obtain rfl := Option.some.inj hst
    refine hcall ha.1 (Registered.keeps hreg (.setTask fun hne => ?_))
    rw [← ha.2] at hne
    exact absurd hout hne
  | block =>
    obtain rfl := Option.some.inj hst
    exact hcall ha (Reg.block hreg hout)
  | unblock i =>
    obtain rfl := Option.some.inj hst
    exact hcall ha (Registered.keeps hreg (keeps_unblock fun hi hb => hs ⟨hi, hb⟩))
  | resumeAfterExec =>
    obtain rfl := Option.some.inj hst
    exact hcall ha (Registered.keeps hreg (.setTask fun hne => absurd hout hne))
  | reap =>
    obtain ⟨k', hk', rfl⟩ := Option.map_eq_some_iff.mp hst
    exact hcall ha (Registered.reap hreg hk')
  | pick =>
    obtain rfl := Option.some.inj hst
    refine ⟨hreg, fun i hi hb => ?_⟩
    have hb' : (σ.w.k.tasks i).state = .blocked := hb
    rw [pick_ready hi] at hb'
    cases hb'
  | switch =>
    rw [Machine.step] at hst
    cases hp : σ.w.pending with
    | none =>
      rw [hp] at hst
      obtain rfl := Option.some.inj hst
      exact hσ
    | some dst =>
      rw [hp] at hst
      obtain rfl := Option.some.inj hst
      exact .of_reg (Registered.keeps hreg (keeps_switchTo (hσ.pending dst hp))) rfl
  | kill pid sig =>
    obtain rfl := Option.some.inj hst
    exact hcall ha (Registered.kill hreg hs hout sig)
  | fault intNo =>
    obtain rfl := Option.some.inj hst
    exact hcall ha (Registered.killUserFault hreg hout intNo)
  | exit code =>
    obtain rfl := Option.some.inj hst
    exact hcall ha (Registered.exit hreg hout code)
  | tick keys serial =>
    obtain rfl := Option.some.inj hst
    exact hσ.tick hs
  | preempt r =>
    obtain ⟨x, hpre, rfl⟩ := Option.map_eq_some_iff.mp hst
    exact hσ.preempt hpre
  | key =>
    obtain rfl := Option.some.inj hst
    refine hσ.of_noPark (Registered.keeps hreg (keeps_kbdWake fun i hi hne hb => ?_))
      (wakes_kbdWake _ _).noPark (Or.inl rfl)
    exact hs i hi ⟨hne, hb⟩
  | drain keys =>
    obtain rfl := Option.some.inj hst
    refine hcall ((Machine.calm_ttyDrain σ.w keys).2.trans ha) (Registered.keeps hreg ?_)
    exact keeps_ttyDrain σ.w hs.1 fun hne i hi hpc hb => hs.2 hne i hi ⟨hpc, hb⟩
  | collect pid =>
    obtain rfl := Option.some.inj hst
    exact hcall ha (Reg.collect hreg hout pid)
  | work t =>
    obtain rfl := Option.some.inj hst
    exact hcall ha.1 (Registered.keeps hreg (.setTask fun hne => absurd hout hne))
  | outside mmu pipes kbdWait owner sigs =>
    obtain rfl := Option.some.inj hst
    refine hcall ha (Registered.keeps hreg ((Keeps.setMmu _ mmu).trans (.setPipes ?_ ?_)))
    · intro a d
      rw [hout]
      rfl
    · intro a d
      rw [hout]
      exact id

/-- **One operation.** -/
theorem Waiters.step {op : PipeOp H} (hσ : σ.Waiters) (ha : σ.Allowed op) (hs : σ.Undisturbed op)
    (hst : σ.step h op = some (σ', h')) : σ'.Waiters := by
  have hreg := hσ.reg
  cases op with
  | read a len =>
    obtain ⟨⟨o, l, σ₁⟩, hr, he⟩ := Option.map_eq_some_iff.mp hst
    obtain ⟨rfl, rfl⟩ := Prod.mk.inj he
    refine .of_reg (hreg.pipeRd ⟨ha.2.1.2.2, ha.2.2⟩ hs hr) ?_
    exact (pipeRd_pending hr).trans ha.2.1.2.1
  | write a s =>
    obtain ⟨⟨o, l, σ₁⟩, hr, he⟩ := Option.map_eq_some_iff.mp hst
    obtain ⟨rfl, rfl⟩ := Prod.mk.inj he
    refine .of_reg (hreg.pipeWr ⟨ha.2.1.2.2, ha.2.2⟩ hs hr) ?_
    exact (pipeWr_pending hr).trans ha.2.1.2.1
  | resume =>
    obtain ⟨⟨o, l, σ₁⟩, hr, he⟩ := Option.map_eq_some_iff.mp hst
    obtain ⟨rfl, rfl⟩ := Prod.mk.inj he
    obtain ⟨hne, hp, hb, -⟩ := ha
    rw [PipeMachine.resume] at hr
    rw [Undisturbed] at hs
    cases hpc : σ.pc σ.current with
    | out => exact absurd hpc hne
    | rd a len =>
      rw [hpc] at hr hs
      obtain ⟨h₁, h₂, h₃⟩ := hreg.unpark (d := false) (a := a) hne hb hs
      exact .of_reg (Reg.pipeRd h₁ h₂ (fun _ _ => h₃) hr) ((pipeRd_pending hr).trans hp)
    | wr a rest put =>
      rw [hpc] at hr hs
      obtain ⟨h₁, h₂, h₃⟩ := hreg.unpark (d := true) (a := a) hne hb hs
      exact .of_reg (Reg.pipeWr h₁ h₂ (fun _ _ _ => h₃) hr) ((pipeWr_pending hr).trans hp)
  | pipe =>
    obtain he := Option.some.inj hst
    have h₁ := hreg.makePipe hs h
    rw [he] at h₁
    refine .of_reg h₁ ?_
    have hp : (σ.makePipe h).1.w.pending = σ.w.pending := by
      rw [PipeMachine.makePipe]
      cases σ.w.k.freePipe with
      | none => rfl
      | some p => rfl
    rw [he] at hp
    exact hp.trans ha.2.1
  | dup2 old nw =>
    obtain ⟨rfl, rfl⟩ := Prod.mk.inj (Option.some.inj hst)
    exact .of_reg (Registered.dup2 hreg old nw) ha.2.1
  | fdInstall into childFd src =>
    obtain ⟨rfl, rfl⟩ := Prod.mk.inj (Option.some.inj hst)
    exact .of_reg (Registered.fdInstall hreg into childFd src) ha.2.1
  | fdClose fd =>
    obtain ⟨rfl, rfl⟩ := Prod.mk.inj (Option.some.inj hst)
    exact .of_reg (Registered.closeFd hreg fd) ha.2.1
  | plain op =>
    obtain ⟨w, hw, he⟩ := Option.map_eq_some_iff.mp hst
    obtain ⟨rfl, rfl⟩ := Prod.mk.inj he
    exact hσ.plain ha hs hw

omit [PageAlloc H] in
theorem waiters_boot (m : Mmu H) (kstack : ℕ) (kernCode : UInt32) :
    (boot m kstack kernCode).Waiters := by
  refine .of_reg ⟨fun d a i => ?_, fun d a i hat => absurd rfl hat.ne_out,
    fun i hi => absurd rfl hi⟩ rfl
  refine iff_of_false (fun he => ?_) fun hat => absurd rfl hat.1.ne_out
  cases d <;> cases he

/-- **Those who wait are registered.** As long as no place is used by two and nobody makes a parked
task move, the task recorded at a pipe as the reader that waits is the one that is parked in
`pipe_rd` there, and so for the writer. A parked reader finds nothing to read and there is a writer;
a parked writer finds no room and there is a reader. -/
theorem waiters_registered (hr : PipeReaches Undisturbed σ h) (a : ℕ) (i : Fin kMaxTask) :
    ((σ.w.k.pipes a).rdWait = some i ↔
        (∃ len, σ.pc i = .rd a len) ∧ (σ.w.k.tasks i).state = .blocked) ∧
      ((σ.w.k.pipes a).wrWait = some i ↔
        (∃ rest put, σ.pc i = .wr a rest put) ∧ (σ.w.k.tasks i).state = .blocked) ∧
      ((σ.w.k.pipes a).rdWait = some i → (σ.ring a).n = 0 ∧ (σ.w.k.pipes a).writers ≠ 0) ∧
      ((σ.w.k.pipes a).wrWait = some i →
        (σ.ring a).n = kPipeBytes ∧ (σ.w.k.pipes a).readers ≠ 0) := by
  have hreg : σ.Reg := by
    have hw : σ.Waiters := by
      induction hr with
      | start m kstack kernCode => exact waiters_boot m kstack kernCode
      | step _ ha hs hst ih => exact ih.step ha hs hst
    exact hw.reg
  refine ⟨hreg.place false a i, hreg.place true a i, fun hi => ?_, fun hi => ?_⟩
  · obtain ⟨hat, hb⟩ := (hreg.place false a i).mp hi
    exact hreg.why false a i hat hb
  · obtain ⟨hat, hb⟩ := (hreg.place true a i).mp hi
    exact hreg.why true a i hat hb

/-- The first process waits for its child to write. -/
theorem waiters_registered_waited : (∃ len, waited.1.pc 0 = .rd 1 len) ∧
    (waited.1.w.k.tasks 0).state = .blocked ∧ (waited.1.ring 1).n = 0 ∧
    (waited.1.w.k.pipes 1).writers ≠ 0 := by
  have h₀ : PipeReaches Undisturbed forked.1 forked.2 :=
    reaches_forked (show ∀ p, _ from fun p _ => ⟨rfl, rfl⟩) trivial
  have h₁ : PipeReaches Undisturbed waited.1 waited.2 :=
    h₀.did (.read 1 1) ⟨by decide, by decide +kernel, by decide +kernel, by decide +kernel⟩
      (show _ → _ → _ = none from fun _ _ => by decide +kernel) (by decide +kernel)
  have hplace : (waited.1.w.k.pipes 1).rdWait = some 0 := by decide +kernel
  obtain ⟨h, -, hwhy, -⟩ := waiters_registered h₁ 1 0
  exact ⟨(h.mp hplace).1, (h.mp hplace).2, hwhy hplace⟩

/-- The child reads as well. -/
def crowded : PipeMachine Pages.Bump × History :=
  after (after (after waited (.plain .pick)) (.plain .switch)) (.read 1 1)

/-- The child has taken the place, and the first process is parked there and nobody knows. -/
theorem crowded_forgotten : PipeReaches (fun _ _ => True) crowded.1 crowded.2 ∧
    crowded.1.pc 0 = .rd 1 1 ∧ (crowded.1.w.k.tasks 0).state = .blocked ∧
    (crowded.1.w.k.pipes 1).rdWait = some 1 := by
  have h₀ : PipeReaches (fun _ _ => True) forked.1 forked.2 := reaches_forked trivial trivial
  have h₁ : PipeReaches (fun _ _ => True) waited.1 waited.2 :=
    h₀.did (.read 1 1) ⟨by decide, by decide +kernel, by decide +kernel, by decide +kernel⟩ trivial
      (by decide +kernel)
  have h₂ : PipeReaches (fun _ _ => True) crowded.1 crowded.2 :=
    (h₁.turn (by decide +kernel) (fun _ => trivial) trivial (by decide +kernel)).did (.read 1 1)
      ⟨by decide, by decide +kernel, by decide +kernel, by decide +kernel⟩ trivial
      (by decide +kernel)
  exact ⟨h₂, by decide +kernel, by decide +kernel, by decide +kernel⟩

end PipeMachine

end Aurisys
